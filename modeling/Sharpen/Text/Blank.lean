import Sharpen.Text.Basic

/-!
# Blanks

Blank characters are the spaces, the line and paragraph separators and the controls that move the
print position. Trimming, splitting into words and squeezing all go by this one class; where only
some of it counts (spaces and tabs within a line), `isSpaceOrTab` is used instead.

The class is given by intervals of code points, because it covers all scripts and not only the
characters of one. A newline is a blank like any other for everything here.

## Main definitions

* `Text.trim` and its halves take blanks off the ends.
* `Text.words` are the runs of other characters; `Text.squeeze` keeps one space per run of blanks.
* `blankRanges` is the intervals of blank characters, in increasing order.
* `isBlank` says whether a character is blank.
* `isSpaceOrTab` holds of the blanks that keep the line.
* `Text.isBlank` says whether a text has nothing but blanks.
-/

namespace Sharpen

/-- The intervals of blank characters, in increasing order. -/
def blankRanges : List (Nat × Nat) :=
  [(0x9, 0xD), (0x1C, 0x20), (0x85, 0x85), (0xA0, 0xA0), (0x1680, 0x1680), (0x2000, 0x200A),
   (0x2028, 0x2029), (0x202F, 0x202F), (0x205F, 0x205F), (0x3000, 0x3000)]

/-- Whether a character is blank. -/
def isBlank (c : Char) : Bool :=
  blankRanges.any fun r => r.1 ≤ c.toNat && c.toNat ≤ r.2

/-- The blanks that keep the line. -/
def isSpaceOrTab (c : Char) : Bool :=
  c == ' ' || c == '\t'

namespace Text

/-- Whether a text has nothing but blanks. -/
def isBlank (t : Text) : Bool :=
  t.all Sharpen.isBlank

/-- The text without the blanks it starts with. -/
def trimStart (t : Text) : Text :=
  t.dropWhile Sharpen.isBlank

/-- The text without the blanks it ends with. -/
def trimEnd (t : Text) : Text :=
  t.dropEndWhile Sharpen.isBlank

/-- The text without the blanks at either end. -/
def trim (t : Text) : Text :=
  t.trimStart.trimEnd

/-- The runs of characters that are not blank. -/
def words : Text → List Text
  | [] => []
  | c :: r =>
    if Sharpen.isBlank c then words r
    else if r.head?.all Sharpen.isBlank then [c] :: words r
    else consHead c (words r)

/-- The text with every run of blanks written as one space. -/
def squeeze : Text → Text
  | [] => []
  | c :: r =>
    if Sharpen.isBlank c then
      if r.head?.any Sharpen.isBlank then squeeze r else ' ' :: squeeze r
    else c :: squeeze r

/-- The words of a text with one space between them. -/
def normalizeBlanks (t : Text) : Text :=
  join " " t.words

end Text

end Sharpen
