import Sharpen.Text.Basic

/-!
# Places in a document

Lines and columns decide what belongs together in a document, so a place knows both.

Skipping goes over spaces, comments and line breaks at once and counts lines and columns on the way.
A tab may not stand where the column matters.

## Main definitions

* `Place.skip` goes to the next thing that is neither a space, a comment nor a line break.
* `Place.atDash`, `Place.atColon` and `Place.atEnd` say what stands at a place.
* `Yaml.isBreak` holds of the characters that end a line.
* `Yaml.isGap` holds of the characters that end a plain word.
* `Yaml.isAllowed` holds of the characters that may stand in a document at all.
* `Yaml.Place` is a place: its line, its column and the text from there on.
-/

namespace Sharpen.Yaml

/-- The characters that end a line. -/
def isBreak (c : Char) : Bool :=
  c == '\n' || c == '\x85' || c == '\u2028' || c == '\u2029'

/-- The characters that end a plain word. -/
def isGap (c : Char) : Bool :=
  c == ' ' || c == '\t' || isBreak c

/-- The characters that may stand in a document at all. -/
def isAllowed (c : Char) : Bool :=
  let n := c.toNat
  c == '\t' || c == '\n' || (0x20 ≤ n && n ≤ 0x7E) || n == 0x85 || (0xA0 ≤ n && n ≤ 0xFFFD)
    || 0x10000 ≤ n

/-- A place: its line, its column and the text from there on. -/
structure Place where
  line : Nat
  column : Nat
  rest : Text
deriving DecidableEq, Repr

/-- The start of a document; a byte-order mark is no part of it. -/
def Place.start (t : Text) : Place :=
  ⟨0, 0, if t.head? == some '\uFEFF' then t.drop 1 else t⟩

/-- Skips spaces, comments and line breaks. -/
def skipFrom : (inComment : Bool) → (line column : Nat) → Text → Place
  | _, line, column, [] => ⟨line, column, []⟩
  | inComment, line, column, c :: r =>
    if isBreak c then skipFrom false (line + 1) 0 r
    else if inComment || c == '#' then skipFrom true line (column + 1) r
    else if c == ' ' then skipFrom false line (column + 1) r
    else ⟨line, column, c :: r⟩

/-- Whether a line of three dashes or dots starts here, which divides documents. -/
def isMarker (t : Text) : Bool :=
  (t.startsWith "---" || t.startsWith "...") && (t.drop 3).head?.all isGap

namespace Place

/-- The place of the next thing to read. -/
def skip (p : Place) : Place :=
  skipFrom false p.line p.column p.rest

/-- The place `n` characters further on. -/
def advance (p : Place) : Nat → Place
  | 0 => p
  | n + 1 =>
    match p.rest with
    | [] => p
    | c :: r =>
      if isBreak c then advance ⟨p.line + 1, 0, r⟩ n else advance ⟨p.line, p.column + 1, r⟩ n

/-- The place behind the spaces that follow. -/
def skipSpaces (p : Place) : Place :=
  p.advance (p.rest.takeWhile (· == ' ')).length

/-- The character at a place. -/
def head? (p : Place) : Option Char :=
  p.rest.head?

/-- Whether a dash starts an item of a list here. -/
def atDash (p : Place) : Bool :=
  p.head? == some '-' && (p.rest.drop 1).head?.all isGap

/-- Whether a colon divides a key from its value here. -/
def atColon (p : Place) : Bool :=
  p.head? == some ':' && (p.rest.drop 1).head?.all isGap

/-- Whether a line that divides documents starts here. -/
def atMarker (p : Place) : Bool :=
  p.column == 0 && isMarker p.rest

/-- Whether the document ends here. -/
def atEnd (p : Place) : Bool :=
  p.rest.isEmpty || p.atMarker

end Place

end Sharpen.Yaml
