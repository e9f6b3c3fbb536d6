import Sharpen.Text.Basic

/-!
# Masking comments and literals

Structure is looked for in a masked copy of a program text, in which comments and the insides of
string and character literals are spaces. Masking keeps the length and every newline, so a position
found in the masked copy is a position of the text itself.

The text is gone through once, in one of five zones: code, the two kinds of comments, a literal, and
a literal behind a backslash. A line break ends a line comment, and a literal, too, unless a
backslash stands before it. What a mark consists of is hidden with what it opens; the quotes of a
literal are shown.

## Main definitions

* `maskCode` is the masked copy.
* `Zone` is what a character of a program text is part of.
* `maskFrom` masks a text that starts inside the given zone.

## Main results

* `length_maskCode` says that it has the length of the text.
-/

namespace Sharpen

/-- What a character of a program text is part of. -/
inductive Zone where
  /-- Plain code. -/
  | code
  /-- A comment that runs to the end of its line. -/
  | lineComment
  /-- A comment that runs to its closing mark. -/
  | blockComment
  /-- A literal, with the quote that closes it. -/
  | literal (quote : Char)
  /-- The character after a backslash inside a literal. -/
  | escaped (quote : Char)
deriving DecidableEq, Repr

/-- The two characters that open and close literals. -/
def isQuote (c : Char) : Bool :=
  c == '"' || c == '\''

/-- A hidden character: newlines stay, all else becomes a space. -/
def hide (c : Char) : Char :=
  if c == '\n' then '\n' else ' '

/-- Masks a text that starts inside the given zone. A literal keeps its quotes; it ends at its
quote or at a newline, and one that runs into the end of the text keeps its last character. -/
def maskFrom : Zone → Text → Text
  | _, [] => []
  | .code, '/' :: '/' :: r => ' ' :: ' ' :: maskFrom .lineComment r
  | .code, '/' :: '*' :: r => ' ' :: ' ' :: maskFrom .blockComment r
  | .code, c :: r => c :: maskFrom (if isQuote c then .literal c else .code) r
  | .lineComment, c :: r => hide c :: maskFrom (if c == '\n' then .code else .lineComment) r
  | .blockComment, '*' :: '/' :: r => ' ' :: ' ' :: maskFrom .code r
  | .blockComment, c :: r => hide c :: maskFrom .blockComment r
  | .literal _, [c] => [c]
  | .escaped _, [c] => [c]
  | .literal q, c :: r =>
    if c == q || c == '\n' then c :: maskFrom .code r
    else ' ' :: maskFrom (if c == '\\' then .escaped q else .literal q) r
  | .escaped q, c :: r => hide c :: maskFrom (.literal q) r

/-- The masked copy of a text. -/
def maskCode (t : Text) : Text :=
  maskFrom .code t

/-- Masking keeps the length, whatever the text starts inside of. -/
theorem length_maskFrom (z : Zone) (t : Text) : (maskFrom z t).length = t.length := by
  fun_induction maskFrom z t <;> simp_all

/-- The masked copy has the length of the text. -/
@[simp]
theorem length_maskCode (t : Text) : (maskCode t).length = t.length :=
  length_maskFrom .code t

end Sharpen
