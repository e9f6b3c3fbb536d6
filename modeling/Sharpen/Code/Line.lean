import Sharpen.Code.Mask
import Sharpen.Text.Blank

/-!
# Lines of code

A line may carry a comment at its end and be indented by tabs or spaces. These functions take lines
apart and put blocks of lines into a form that does not depend on the place they were found at. A
quote opens a literal here as it does in the masked copy, so that `//` in a literal starts no
comment.

## Main definitions

* `splitTrailingComment` separates a line's code from the `//` comment that ends it.
* `expandTabs` and `leadingWidth` measure indentation; a tab is four columns wide.
* `stripCommonIndent` takes off the indentation all lines share; `normalizeBlock` does so for a
  captured block and drops the blank lines around it.
* `trimBlankLines` drops blank lines from both ends.
-/

namespace Sharpen

/-! ### Trailing comments -/

/-- The position of the first `//` outside literals, in a text that starts inside the given
literal. -/
def lineCommentStart? : Option Char → (escaped : Bool) → Text → Option Nat
  | _, _, [] => none
  | some q, escaped, c :: r =>
    (if escaped then lineCommentStart? (some q) false r
     else if c == '\\' then lineCommentStart? (some q) true r
     else if c == q then lineCommentStart? none false r
     else lineCommentStart? (some q) false r).map (· + 1)
  | none, _, c :: r =>
    if isQuote c then (lineCommentStart? (some c) false r).map (· + 1)
    else if c == '/' && r.head? == some '/' then some 0
    else (lineCommentStart? none false r).map (· + 1)

/-- The code of a line and the `//` comment after it, each trimmed on the side where they met. -/
def splitTrailingComment (line : Text) : Text × Text :=
  match lineCommentStart? none false line with
  | some i => (Text.trimEnd (line.take i), Text.trim (line.drop i))
  | none => (line.trimEnd, [])

/-! ### Indentation -/

/-- The columns a tab is wide. -/
def tabWidth : Nat := 4

/-- The line with every tab written as spaces. -/
def expandTabs (line : Text) : Text :=
  line.flatMap fun c => if c == '\t' then List.replicate tabWidth ' ' else [c]

/-- The number of columns before the first character that is neither space nor tab. -/
def leadingWidth (line : Text) : Nat :=
  ((expandTabs line).takeWhile (· == ' ')).length

/-- The smallest of some widths, and zero if there are none. -/
def leastWidth (widths : List Nat) : Nat :=
  widths.min?.getD 0

/-- The lines without the indentation that the nonblank ones share, and that indentation. Blank
lines become empty. -/
def stripCommonIndent (lines : List Text) : List Text × Nat :=
  let expanded := lines.map fun l => (expandTabs l).trimEnd
  let indent := leastWidth ((expanded.filter fun l => !l.isBlank).map leadingWidth)
  (expanded.map fun l => if l.isBlank then [] else l.drop indent, indent)

/-- Drops blank lines from both ends. -/
def trimBlankLines (lines : List Text) : List Text :=
  ((lines.dropWhile Text.isBlank).reverse.dropWhile Text.isBlank).reverse

/-- A captured block without surrounding blank lines and without its indentation, and that
indentation. -/
def normalizeBlock (t : Text) : Text × Nat :=
  let (lines, indent) := stripCommonIndent (trimBlankLines (Text.lines t.normalizeNewlines))
  (Text.join "\n" lines, indent)

end Sharpen
