import Sharpen.Code.Line

/-!
# Layout of generated code

Generated code is indented by levels of four spaces. A captured block keeps its relative indentation
and is moved to the level where it is written.

A block is captured with the place it had in a source file. To move it, the tabs in its indentation
are made spaces, the indentation that all of its lines share is taken off, and that of the level is
put in its place. Blank lines around the block go, and of several in a row one stays.

## Main definitions

* `indentation` is the indentation of a level.
* `reindent` moves a block to a level; `collapseBlankLines` leaves one of every run of blank lines.
* `detectIndent` is the indentation that the nonblank lines of a text share.
-/

namespace Sharpen

/-- The spaces of one level. -/
def indentUnit : Nat := 4

/-- The spaces in front of a line at a level; levels below zero have none. -/
def indentation (level : Int) : Text :=
  List.replicate (level.toNat * indentUnit) ' '

/-- The indentation that the nonblank lines of a text share. -/
def detectIndent (t : Text) : Nat :=
  leastWidth (((Text.lines t.normalizeNewlines).filter fun l => !l.isBlank).map leadingWidth)

/-- Leaves one of every run of blank lines, written as `blank`; `afterBlank` says whether a blank
line precedes. -/
def collapseFrom (blank : Text) : (afterBlank : Bool) → List Text → List Text
  | _, [] => []
  | afterBlank, l :: r =>
    if l.isBlank then
      if afterBlank then collapseFrom blank true r else blank :: collapseFrom blank true r
    else l :: collapseFrom blank false r

/-- Leaves one of every run of blank lines, written as `blank`. -/
def collapseBlankLines (blank : Text) (lines : List Text) : List Text :=
  collapseFrom blank false lines

/-- The lines of a block at a level: its least indentation becomes that of the level, blank lines
around it are dropped, and blank lines inside it have exactly the indentation of the level. -/
def reindent (t : Text) (level : Int) : List Text :=
  let lines := (Text.lines t.normalizeNewlines).map fun l => (expandTabs l).trimEnd
  let lines := ((lines.dropWhile List.isEmpty).reverse.dropWhile List.isEmpty).reverse
  let baseline := leastWidth ((lines.filter fun l => !l.isEmpty).map leadingWidth)
  let lead := indentation level
  collapseBlankLines lead (lines.map fun l => if l.isEmpty then [] else lead ++ l.drop baseline)

end Sharpen
