import Sharpen.Text.Blank
import Sharpen.Text.Word

/-!
# Readers

A reader recognises something at a place of a text and moves past it. Repetition takes the longest
run and choice is ordered, so a reader answers in one way only; what a reader needs to know of the
text before its place is the one character there.

Readers are built from a few parts: a character of a class, runs, choices, and looks at what comes
next. A search tries a reader at each place and goes on behind a match, or one character further if
there is none. There is no going back into a repetition or a choice that has succeeded; a reader
that needs it spells the alternatives out.

## Main definitions

* `Cursor` is a place of a text; `Reader` is a reader.
* `Reader.findAll` gives all matches of a reader, from left to right and without overlap.
* `Cursor.at` is position `i` of a text.
* `Reader.satisfy` reads one character of a class.
* `Reader.many` reads the longest run of characters of a class.
* `Reader.many1` reads the longest run of characters of a class, of which there must be one.
-/

namespace Sharpen

/-- A place of a text: its position, the character before it and the text after it. -/
structure Cursor where
  position : Nat
  before : Option Char
  rest : Text
deriving DecidableEq, Repr

/-- Position `i` of a text. -/
def Cursor.at (t : Text) (i : Nat) : Cursor :=
  ⟨i, if i = 0 then none else t[i - 1]?, t.drop i⟩

/-- The place `n` characters further on. -/
def Cursor.skip (c : Cursor) : Nat → Cursor
  | 0 => c
  | n + 1 =>
    match c.rest with
    | [] => c
    | x :: r => Cursor.skip ⟨c.position + 1, some x, r⟩ n

/-- A reader fails or gives a value and the place behind what it has read. -/
abbrev Reader (α : Type) := StateT Cursor Option α

namespace Reader

/-- Reads one character of a class. -/
def satisfy (p : Char → Bool) : Reader Char := fun c =>
  match c.rest with
  | [] => none
  | x :: r => if p x then some (x, ⟨c.position + 1, some x, r⟩) else none

/-- Reads one given character. -/
def char (x : Char) : Reader Unit := do
  let _ ← satisfy (· == x)

/-- Reads the longest run of characters of a class. -/
def many (p : Char → Bool) : Reader Text := fun c =>
  let run := c.rest.takeWhile p
  some (run, c.skip run.length)

/-- Reads the longest run of characters of a class, of which there must be one. -/
def many1 (p : Char → Bool) : Reader Text := do
  let run ← many p
  if run.isEmpty then failure else pure run

/-- Reads a given text. -/
def text (w : Text) : Reader Unit := fun c =>
  if w.isPrefixOf c.rest then some ((), c.skip w.length) else none

/-- Succeeds where no word character follows. -/
def wordEnd : Reader Unit := fun c =>
  if c.rest.head?.any isWord then none else some ((), c)

/-- Succeeds where no word character precedes. -/
def wordStart : Reader Unit := fun c =>
  if c.before.any isWord then none else some ((), c)

/-- Succeeds at the start of a line. -/
def lineStart : Reader Unit := fun c =>
  if c.before.all (· == '\n') then some ((), c) else none

/-- Succeeds where the given character does not follow. -/
def notFollowedBy (x : Char) : Reader Unit := fun c =>
  if c.rest.head? == some x then none else some ((), c)

/-- Reads a given word: no word character may follow it. -/
def word (w : Text) : Reader Unit := do
  text w
  wordEnd

/-- Reads the longest run of blanks. -/
def blanks : Reader Unit := do
  let _ ← many isBlank

/-- Reads the longest run of blanks, of which there must be one. -/
def blanks1 : Reader Unit := do
  let _ ← many1 isBlank

/-- The position of the place. -/
def here : Reader Nat := fun c =>
  some (c.position, c)

/-- Reads something if it is there. -/
def option {α : Type} (r : Reader α) : Reader (Option α) :=
  (some <$> r) <|> pure none

/-- Reads something if it is there, and says whether it was. -/
def present {α : Type} (r : Reader α) : Reader Bool :=
  Option.isSome <$> option r

/-- Reads one of several given texts and gives it. -/
def oneOf (ws : List Text) : Reader Text := fun c =>
  (ws.find? fun w => w.isPrefixOf c.rest).map fun w => (w, c.skip w.length)

/-- What a reader finds at position `i`. -/
def readAt {α : Type} (r : Reader α) (t : Text) (i : Nat) : Option α :=
  (r.run (Cursor.at t i)).map Prod.fst

/-- What a reader finds at the start of a text. -/
def read {α : Type} (r : Reader α) (t : Text) : Option α :=
  r.readAt t 0

/-! ### All matches -/

/-- The matches of a reader in the text from a place on, of which the first `skip` characters
belong to the match before. -/
def findFrom {α : Type} (r : Reader α) : (skip position : Nat) → (before : Option Char) → Text →
    List α
  | _, _, _, [] => []
  | skip + 1, position, _, x :: t => findFrom r skip (position + 1) (some x) t
  | 0, position, before, x :: t =>
    match r.run ⟨position, before, x :: t⟩ with
    | some (a, c) => a :: findFrom r (c.position - position - 1) (position + 1) (some x) t
    | none => findFrom r 0 (position + 1) (some x) t

/-- The matches of a reader, from left to right and without overlap. -/
def findAll {α : Type} (r : Reader α) (t : Text) : List α :=
  findFrom r 0 0 none t

/-- Whether a reader matches anywhere. -/
def occursIn {α : Type} (r : Reader α) (t : Text) : Bool :=
  !(r.findAll t).isEmpty

/-- Replaces the matches of a reader; the first `skip` characters belong to the match before. -/
def replaceFrom {α : Type} (r : Reader α) (new : α → Text) : (skip : Nat) → (before : Option Char) →
    Text → Text
  | _, _, [] => []
  | skip + 1, _, x :: t => replaceFrom r new skip (some x) t
  | 0, before, x :: t =>
    match r.run ⟨0, before, x :: t⟩ with
    | some (a, c) =>
      if c.position = 0 then x :: replaceFrom r new 0 (some x) t
      else new a ++ replaceFrom r new (c.position - 1) (some x) t
    | none => x :: replaceFrom r new 0 (some x) t

/-- The text with every match of a reader replaced, from left to right and without overlap. -/
def replaceIn {α : Type} (r : Reader α) (new : α → Text) (t : Text) : Text :=
  replaceFrom r new 0 none t

end Reader

end Sharpen
