import Sharpen.CSharp.Layout

/-!
# Writer

The lines of a generated file, gathered one after the other at explicit levels.

Levels are given with each line and not kept, so that no operation has to be undone by another. The
writer knows a shift of all levels but the outermost one, which is how one writer serves both forms
of a namespace. Blank lines are written on demand and never twice in a row.

## Main definitions

* `Writer.line` and `Writer.block` write at a level; `Writer.blank` keeps single blank lines.
* `Writer.render` gives the text.
* `Writer` is the lines written so far.
* `Writer.indent` is the indentation of a level; the outermost level is never moved.
* `Writer.lineAll` writes several lines at a level.
-/

namespace Sharpen

/-- The lines written so far. -/
structure Writer where
  /-- By how much every level but the outermost is moved. -/
  shift : Int := 0
  lines : List Text := []
deriving DecidableEq, Repr

namespace Writer

/-- The indentation of a level; the outermost level is never moved. -/
def indent (w : Writer) (level : Int) : Text :=
  indentation (if 0 < level then level + w.shift else 0)

/-- Writes a line at a level; an empty line has no indentation. -/
def line (w : Writer) (t : Text) (level : Int) : Writer :=
  { w with lines := w.lines ++ [if t.isEmpty then [] else w.indent level ++ t] }

/-- Writes several lines at a level. -/
def lineAll (w : Writer) (ts : List Text) (level : Int) : Writer :=
  ts.foldl (fun w t => w.line t level) w

/-- Writes a captured block at a level. -/
def block (w : Writer) (t : Text) (level : Int) : Writer :=
  { w with lines := w.lines ++ reindent t (max (level + w.shift) 0) }

/-- Writes an empty line, unless nothing is written yet or the last line is empty. -/
def blank (w : Writer) : Writer :=
  match w.lines.getLast? with
  | none | some [] => w
  | some (_ :: _) => { w with lines := w.lines ++ [[]] }

/-- Takes back the empty lines at the end. -/
def trimBlank (w : Writer) : Writer :=
  { w with lines := (w.lines.reverse.dropWhile List.isEmpty).reverse }

/-- The last line. -/
def last (w : Writer) : Text :=
  w.lines.getLastD []

/-- The text of all lines, without empty ones at the end, each with a line ending. -/
def render (w : Writer) (lineEnding : Text) : Text :=
  Text.join lineEnding w.trimBlank.lines ++ lineEnding

end Writer

end Sharpen
