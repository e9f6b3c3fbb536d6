import Sharpen.Code.Line

/-!
# Comments of a file

Comments above a declaration belong to it, and comments that open a file, ahead of its first
directive, are the file's banner. A line of comment is used once: the lines that have been taken are
the claimed lines.

Comments are found by going up from a line: over lines that start or end a comment, over whole
comments between marks, and over blank lines to a comment above them. Lines that were claimed before
end the search. What is taken is given as lines without the blanks around them, with the lines that
are now claimed.

## Main definitions

* `collectComments` takes the comment lines directly above a line.
* `bannerComments` takes the comments that open a file.
* `endsComment` says whether a trimmed line ends a comment.
* `lastBelow?` is the greatest number below `n` with the property `p`.
* `climbComments` climbs from line `n` over the comment lines above it and gives the first line of
  the comment.
* `Collected` is comment lines that have been taken: without the indentation they share, that
  indentation, and all lines claimed so far.
-/

namespace Sharpen

/-- Whether a trimmed line starts a comment. -/
def isCommentLine (line : Text) : Bool :=
  line.startsWith "//" || line.startsWith "/*"

/-- Whether a trimmed line ends a comment. -/
def endsComment (line : Text) : Bool :=
  line.startsWith "//" || line.endsWith "*/"

/-- The greatest number below `n` with the property `p`. -/
def lastBelow? (p : Nat → Bool) : Nat → Option Nat
  | 0 => none
  | n + 1 => if p n then some n else lastBelow? p n

/-- What `lastBelow?` finds is below its bound. -/
theorem lt_of_lastBelow? {p : Nat → Bool} {n i : Nat} (h : lastBelow? p n = some i) : i < n := by
  induction n with
  | zero => simp [lastBelow?] at h
  | succ n ih =>
    simp only [lastBelow?] at h
    split at h
    · simp_all
    · exact Nat.lt_succ_of_lt (ih h)

/-- The search looks only at what is below its bound. -/
theorem lastBelow?_congr {p q : Nat → Bool} {n : Nat} (h : ∀ i < n, p i = q i) :
    lastBelow? p n = lastBelow? q n := by
  induction n with
  | zero => rfl
  | succ n ih =>
    rw [lastBelow?, lastBelow?, h n (Nat.lt_succ_self n),
      ih fun i hi => h i (Nat.lt_succ_of_lt hi)]

/-- Line `i` without the blanks at its ends. -/
def trimmedLine (lines : List Text) (i : Nat) : Text :=
  Text.trim (lines.getD i [])

/-- Climbs from line `n` over the comment lines above it and gives the first line of the comment.
A comment in `/* … */` is taken whole or not at all; blank lines are crossed only between `n` and
`bottom`, where comment lines have been found already, and only towards another comment. -/
def climbComments (lines : List Text) (claimed : List Nat) (bottom : Nat) : Nat → Nat
  | 0 => 0
  | cursor + 1 =>
    let line := trimmedLine lines cursor
    if claimed.contains cursor then cursor + 1
    else if line.startsWith "//" then climbComments lines claimed bottom cursor
    else if line.endsWith "*/" then
      match h : lastBelow? (fun i => Text.hasInfix (lines.getD i []) "/*") (cursor + 1) with
      | none => cursor + 1
      | some start =>
        if (List.range' start (cursor + 1 - start)).any claimed.contains
            || !Text.startsWith (trimmedLine lines start) "/*" then cursor + 1
        else climbComments lines claimed bottom start
    else if line.isEmpty && decide (cursor + 1 < bottom) then
      match h : lastBelow? (fun i => !Text.isBlank (lines.getD i [])) cursor with
      | none => cursor + 1
      | some above =>
        if !claimed.contains above && endsComment (trimmedLine lines above) then
          climbComments lines claimed bottom (above + 1)
        else cursor + 1
    else cursor + 1
termination_by n => n
decreasing_by
  · exact Nat.lt_succ_self cursor
  · exact lt_of_lastBelow? h
  · exact Nat.succ_lt_succ (lt_of_lastBelow? h)

/-- Comment lines that have been taken: without the indentation they share, that indentation, and
all lines claimed so far. -/
structure Collected where
  lines : List Text
  indent : Nat
  claimed : List Nat
deriving DecidableEq, Repr

/-- Takes the lines from `first` up to, and without, `last`. -/
def takeLines (lines : List Text) (claimed : List Nat) (first last : Nat) : Collected :=
  let (taken, indent) := stripCommonIndent ((lines.take last).drop first)
  ⟨taken, indent, claimed ++ List.range' first (last - first)⟩

/-- Takes the comment directly above line `index`. -/
def collectComments (lines : List Text) (index : Nat) (claimed : List Nat) : Collected :=
  takeLines lines claimed (climbComments lines claimed index index) index

/-- Takes the comment directly above line `index`, which may be past the end. Then there is no line
above it to look at, unless that line is claimed. -/
def collectComments? (lines : List Text) (index : Nat) (claimed : List Nat) : Option Collected :=
  if index ≤ lines.length || claimed.contains (index - 1) then
    some (collectComments lines index claimed)
  else none

/-! ### The banner of a file -/

/-- The number of lines before the first directive, if these are only comments and blank lines;
`inBlock` says that the lines start inside a block comment. -/
def bannerSpan : (inBlock : Bool) → List Text → Option Nat
  | _, [] => some 0
  | true, l :: r => (bannerSpan (!Text.hasInfix l "*/") r).map (· + 1)
  | false, l :: r =>
    let line := l.trim
    if line.isEmpty || line.startsWith "//" then (bannerSpan false r).map (· + 1)
    else if line.startsWith "/*" then (bannerSpan (!Text.hasInfix line "*/") r).map (· + 1)
    else if line.startsWith "#" then some 0
    else none

/-- Takes the comments that open a file ahead of its first directive. Comments ahead of other
code belong to that code. -/
def bannerComments (lines : List Text) : Collected :=
  let opening := lines.take ((bannerSpan false lines).getD 0)
  let first := (opening.takeWhile Text.isBlank).length
  let last := first + (trimBlankLines opening).length
  takeLines lines [] first last

end Sharpen
