import Sharpen.Text.Basic

/-!
# Glob patterns

In a pattern a star stands for any text, a question mark for any character, and a set in brackets
for one of its characters, or for any other one if the set starts with an exclamation mark.
Everything else stands for itself, as does a bracket that is not closed.

A pattern is a list of items, and matching tries for each star how much of the text it takes. Sets
are read like those of the shell, with the corner cases that come with it: ranges that have no
characters are dropped, and a closing bracket that comes first stands for itself.

## Main definitions

* `Glob.ofText` reads a pattern.
* `Glob.accepts` says whether a pattern matches the whole of a text.
* `GlobItem` is a part of a pattern.
* `Glob` is a pattern.
* `Glob.rangesOf` is the ranges of a set; a dash that makes no range stands for itself.
* `Glob.setItem` is the item for the text of a set.
-/

namespace Sharpen

/-- A part of a pattern. -/
inductive GlobItem where
  | star
  | any
  | char (c : Char)
  /-- One character in the ranges, or out of them. -/
  | oneOf (negated : Bool) (ranges : List (Char × Char))
deriving DecidableEq, Repr

/-- A pattern. -/
abbrev Glob := List GlobItem

namespace Glob

/-! ### Sets -/

/-- The text of a set, divided at the dashes that make ranges: a dash makes one if a character
stands before it that is not the end of another range, and something stands behind it. The first
`start` characters are not such a dash. -/
def rangeParts : (fuel : Nat) → (start : Nat) → Text → List Text
  | 0, _, t => [t]
  | fuel + 1, start, t =>
    match t.findChar? '-' start with
    | none => [t]
    | some k =>
      if (t.drop (k + 1)).isEmpty then [t]
      else t.take k :: rangeParts fuel 2 (t.drop (k + 1))

/-- Whether the range from the end of one part to the start of the next has no characters. -/
def isReversed (a b : Text) : Bool :=
  match a.getLast?, b.head? with
  | some x, some y => y.toNat < x.toNat
  | _, _ => false

/-- Takes out the ranges that have no characters, with both their ends. -/
def dropReversed : List Text → List Text
  | [] => []
  | a :: r =>
    match dropReversed r with
    | [] => [a]
    | b :: s => if isReversed a b then (a.dropLast ++ b.drop 1) :: s else a :: b :: s

/-- The characters of a set, `none` for a dash that makes a range. -/
def setTokens (t : Text) : List (Option Char) :=
  let start := if t.head? == some '!' then 2 else 1
  List.intercalate [none] ((dropReversed (rangeParts t.length start t)).map (·.map some))

/-- The ranges of a set; a dash that makes no range stands for itself. -/
def rangesOf : List (Option Char) → List (Char × Char)
  | a :: none :: b :: r => (a.getD '-', b.getD '-') :: rangesOf r
  | a :: r => (a.getD '-', a.getD '-') :: rangesOf r
  | [] => []

/-- The item for the text of a set. A set from which everything has been taken out matches
nothing, and its negation matches every character. -/
def setItem (t : Text) : GlobItem :=
  match setTokens t with
  | [some '!'] => .any
  | some '!' :: r => .oneOf true (rangesOf r)
  | r => .oneOf false (rangesOf r)

/-- The length of the set at the start of a text, up to its closing bracket; a bracket at the very
start of a set belongs to it. -/
def setLength? (t : Text) : Option Nat :=
  let i := if t.head? == some '!' then 1 else 0
  t.findChar? ']' (if (t.drop i).head? == some ']' then i + 1 else i)

/-! ### Patterns -/

/-- Reads a pattern, of which the first `skip` characters belong to a set. -/
def readFrom : (skip : Nat) → Text → Glob
  | _, [] => []
  | skip + 1, _ :: r => readFrom skip r
  | 0, c :: r =>
    if c == '*' then .star :: readFrom 0 r
    else if c == '?' then .any :: readFrom 0 r
    else if c == '[' then
      match setLength? r with
      | some n => setItem (r.take n) :: readFrom (n + 1) r
      | none => .char c :: readFrom 0 r
    else .char c :: readFrom 0 r

/-- The pattern that a text describes. -/
def ofText (t : Text) : Glob :=
  readFrom 0 t

/-- Whether an item that stands for one character stands for this one. -/
def itemAccepts (c : Char) : GlobItem → Bool
  | .star => false
  | .any => true
  | .char d => c == d
  | .oneOf negated ranges =>
    (ranges.any fun r => r.1.toNat ≤ c.toNat && c.toNat ≤ r.2.toNat) != negated

/-- The ends of a text, from the whole text to the empty one. -/
def ends : Text → List Text
  | [] => [[]]
  | c :: r => (c :: r) :: ends r

/-- Whether a pattern matches the whole of a text. -/
def accepts : Glob → Text → Bool
  | [], t => t.isEmpty
  | .star :: g, t => (ends t).any fun s => accepts g s
  | i :: g, t =>
    match t with
    | [] => false
    | c :: r => itemAccepts c i && accepts g r

end Glob

end Sharpen
