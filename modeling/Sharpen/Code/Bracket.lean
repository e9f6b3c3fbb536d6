import Sharpen.Code.Mask

/-!
# Brackets

Two ways of following brackets: finding the bracket that closes another one, for masked text, and
splitting a text at the separators that no bracket and no literal encloses.

The first way counts brackets of one kind and may fail, since a text may end before they are closed;
what is at the given position must be an opening bracket. The second one counts all kinds together,
with angles among them or without, goes around literals, and never fails. Neither looks at comments,
which are masked or taken out before.

## Main definitions

* `findMatching?` is the position of the closing bracket; `closingBracket` says what closes what.
* `splitTopLevel` splits; joining its parts with the separator gives the text back.
* `closeOffset` is the position of the `close` that ends an open bracket of which `inner` more `opn`
  are open before the text starts.
* `matchingAt?` is the position of the `close` that ends the bracket `opn` at position `i`.
* `BracketError` says why no closing bracket can be looked for.
* `SplitState` says where a splitting scan stands: the bracket depth, which unbalanced text can make
  negative, and the literal it is inside of.
-/

namespace Sharpen

/-! ### The closing bracket -/

/-- The bracket that closes an opening one. -/
def closingBracket : Char → Option Char
  | '(' => some ')'
  | '<' => some '>'
  | '[' => some ']'
  | '{' => some '}'
  | _ => none

/-- The position of the `close` that ends an open bracket of which `inner` more `opn` are open
before the text starts. -/
def closeOffset (opn close : Char) : Nat → Text → Option Nat
  | _, [] => none
  | inner, c :: r =>
    if c == opn then (closeOffset opn close (inner + 1) r).map (· + 1)
    else if c == close then
      match inner with
      | 0 => some 0
      | inner + 1 => (closeOffset opn close inner r).map (· + 1)
    else (closeOffset opn close inner r).map (· + 1)

/-- The position of the `close` that ends the bracket `opn` at position `i`. -/
def matchingAt? (opn close : Char) (t : Text) (i : Nat) : Option Nat :=
  (closeOffset opn close 0 (t.drop (i + 1))).map (· + (i + 1))

/-- Why no closing bracket can be looked for. -/
inductive BracketError where
  /-- The position is not inside the text. -/
  | pastEnd
  /-- The character at the position opens nothing. -/
  | notOpening (c : Char)
deriving DecidableEq, Repr

/-- The position of the bracket that closes the one at position `i`, if the text has it. -/
def findMatching? (t : Text) (i : Nat) : Except BracketError (Option Nat) :=
  match t[i]? with
  | none => .error .pastEnd
  | some c =>
    match closingBracket c with
    | none => .error (.notOpening c)
    | some close => .ok (matchingAt? c close t i)

/-! ### Splitting at separators -/

/-- Where a splitting scan stands: the bracket depth, which unbalanced text can make negative, and
the literal it is inside of. -/
structure SplitState where
  depth : Int := 0
  quote : Option Char := none
  escaped : Bool := false
deriving DecidableEq, Repr

/-- The state after a character that is not a separator. -/
def SplitState.next (angles : Bool) (s : SplitState) (c : Char) : SplitState :=
  match s.quote with
  | some q =>
    if s.escaped then { s with escaped := false }
    else if c == '\\' then { s with escaped := true }
    else if c == q then { s with quote := none }
    else s
  | none =>
    if isQuote c then { s with quote := some c }
    else if c == '(' || c == '[' || c == '{' || (angles && c == '<') then
      { s with depth := s.depth + 1 }
    else if c == ')' || c == ']' || c == '}' || (angles && c == '>') then
      { s with depth := s.depth - 1 }
    else s

/-- Whether a character separates parts: it stands outside literals and brackets and is itself no
quote and no bracket. -/
def SplitState.cuts (sep : Char) (angles : Bool) (s : SplitState) (c : Char) : Bool :=
  c == sep && s.quote.isNone && s.depth == 0 && s.next angles c == s

/-- Splits a text that is reached in state `s`. -/
def splitFrom (sep : Char) (angles : Bool) : SplitState → Text → List Text
  | _, [] => [[]]
  | s, c :: r =>
    if s.cuts sep angles c then [] :: splitFrom sep angles s r
    else Text.consHead c (splitFrom sep angles (s.next angles c) r)

/-- The parts of a text between the separators outside brackets and literals. Angle brackets
count only on request, because an arrow in an expression would unbalance them. -/
def splitTopLevel (sep : Char) (angles : Bool) (t : Text) : List Text :=
  splitFrom sep angles {} t

end Sharpen
