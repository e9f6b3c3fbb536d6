import Sharpen.Code.Mask
import Sharpen.FileTree.Path

/-!
# Pages

A page is the text of one file as the header and source readers see it: the text itself, its masked
copy and its lines. A position means the same place in the text and in the masked copy.

Pages are made once for each file and handed to the reader with the path that the file has, of which
the stem is kept. Line breaks are normalized before, so that lines end with newlines only. Whatever
is looked for is looked for in the masked copy, and what is taken is cut out of the text at the same
positions.

## Main definitions

* `Page.ofText` makes a page of a file's text and path.
* `Page` is the text of one file.
* `Page.lineEnd` is the end of the line that position `i` is on.
* `Page.lineOf` is the number of the line that position `i` is on, counted from zero.
-/

namespace Sharpen

/-- The text of one file. -/
structure Page where
  /-- The text, with line endings in one form. -/
  text : Text
  /-- The text with comments and literals blanked out. -/
  masked : Text
  lines : List Text
  /-- The name of the file without its suffix. -/
  stem : Text
deriving Repr

namespace Page

/-- The page of a file. -/
def ofText (text path : Text) : Page :=
  let t := text.normalizeNewlines
  { text := t, masked := maskCode t, lines := t.lines, stem := Path.stem path }

/-- The end of the line that position `i` is on. -/
def lineEnd (p : Page) (i : Nat) : Nat :=
  (Text.findChar? p.text '\n' i).getD p.text.length

/-- The number of the line that position `i` is on, counted from zero. -/
def lineOf (p : Page) (i : Nat) : Nat :=
  Text.lineOf p.text i

end Page

end Sharpen
