/-!
# Text

A text is a list of characters, so that a position, a length or a width always counts characters.
This module holds what needs no character class.

Texts are lists because most proofs go through them from left to right, and nearly everything about
them is then a statement about lists. Cutting and joining undo each other. Texts are in the order of
the code points of their characters.

## Main definitions

* `Text` is the type of texts; a text is the list of its characters.
* searching: `Text.find?`, `Text.findFrom?`, `Text.hasInfix`;
* cutting: `Text.slice`, `Text.splitOn`, `Text.lines`, `Text.cutAt`;
* putting together: `Text.join`, `Text.replaceAll`;
* ordering: `Text.precedes`.
-/

namespace Sharpen

/-- A text is the list of its characters. -/
abbrev Text := List Char

instance : Coe String Text := ⟨String.toList⟩

namespace Text

/-! ### Searching -/

/-- Whether `t` begins with `p`. -/
def startsWith (t p : Text) : Bool :=
  p.isPrefixOf t

/-- Whether `t` ends with `s`. -/
def endsWith (t s : Text) : Bool :=
  s.isSuffixOf t

/-- The position of the first occurrence of `p`. -/
def find? (p : Text) : Text → Option Nat
  | [] => if p.isEmpty then some 0 else none
  | c :: r => if p.isPrefixOf (c :: r) then some 0 else (find? p r).map (· + 1)

/-- The position of the first occurrence of `p` at or after `i`. -/
def findFrom? (t p : Text) (i : Nat) : Option Nat :=
  (find? p (t.drop i)).map (· + i)

/-- The position of the first `c` at or after `i`. -/
def findChar? (t : Text) (c : Char) (i : Nat) : Option Nat :=
  ((t.drop i).findIdx? (· == c)).map (· + i)

/-- Whether `p` occurs in `t`. -/
def hasInfix (t p : Text) : Bool :=
  (find? p t).isSome

/-! ### Cutting -/

/-- The characters from position `i` up to, and without, position `j`. -/
def slice (t : Text) (i j : Nat) : Text :=
  (t.take j).drop i

/-- Puts a character in front of the first part. -/
def consHead (c : Char) : List Text → List Text
  | [] => [[c]]
  | h :: r => (c :: h) :: r

/-- The parts between the occurrences of `sep`; there is always one part more than separators. -/
def splitOn (sep : Char) : Text → List Text
  | [] => [[]]
  | c :: r => if c == sep then [] :: splitOn sep r else consHead c (splitOn sep r)

/-- The lines of a text, without their newlines. -/
def lines (t : Text) : List Text :=
  splitOn '\n' t

/-- The text before and after the first `sep`, if there is one. -/
def cutAt (sep : Char) : Text → Option (Text × Text)
  | [] => none
  | c :: r => if c == sep then some ([], r) else (cutAt sep r).map fun p => (c :: p.1, p.2)

/-- The text before the first newline and the text after it, which is empty without a newline. -/
def cutLine (t : Text) : Text × Text :=
  (cutAt '\n' t).getD (t, [])

/-- Drops the longest end of `t` whose characters satisfy `p`. -/
def dropEndWhile (p : Char → Bool) (t : Text) : Text :=
  (t.reverse.dropWhile p).reverse

/-- The number of newlines before position `i`, which is the number of the line it is on. -/
def lineOf (t : Text) (i : Nat) : Nat :=
  (t.take i).count '\n'

/-! ### Putting together -/

/-- The parts with `sep` between them. -/
def join (sep : Text) (parts : List Text) : Text :=
  List.intercalate sep parts

/-- Replaces every occurrence of `old`, from left to right; `skip` characters of the text belong
to an occurrence that has been replaced already. -/
def replaceFrom (old new : Text) : Nat → Text → Text
  | _, [] => []
  | skip + 1, _ :: r => replaceFrom old new skip r
  | 0, c :: r =>
    if old.isPrefixOf (c :: r) then new ++ replaceFrom old new (old.length - 1) r
    else c :: replaceFrom old new 0 r

/-- Replaces every occurrence of the nonempty text `old`, from left to right. -/
def replaceAll (t old new : Text) : Text :=
  replaceFrom old new 0 t

/-- The decimal digits of a number. -/
def ofNat (n : Nat) : Text :=
  Nat.toDigits 10 n

/-- Line endings in one form: a carriage return, with or without a newline after it, becomes a
newline. -/
def normalizeNewlines : Text → Text
  | [] => []
  | '\r' :: '\n' :: r => '\n' :: normalizeNewlines r
  | c :: r => (if c == '\r' then '\n' else c) :: normalizeNewlines r

/-! ### Order -/

/-- Code-point order: the first difference decides, and a beginning comes before the whole. -/
def precedes : Text → Text → Bool
  | [], _ => true
  | _ :: _, [] => false
  | a :: s, b :: t => a.toNat < b.toNat || (a == b && precedes s t)

end Text

end Sharpen
