import Sharpen.Text.Blank
import Sharpen.Text.Lower

/-!
# Paths

Paths are texts with slashes between their parts. Empty parts and parts that are a single dot mean
nothing; everything else is kept as it is.

Nothing is looked up on a disk: a path is taken apart by its slashes alone. The stem of a name is
what stands before its last dot, unless the dot is the first character or the last one. Two dots
lead to the folder above when a path is resolved, and stay at the root where there is none above.

## Main definitions

* `Path.name`, `Path.stem` and `Path.suffix` take the last part apart.
* `Path.display` writes a path without the parts that mean nothing.
* `Path.join` puts one path behind another.
* `Path.resolve` gives the location that a path leads to, as the names on the way there.
* `Path.parts` is the parts of a path that mean something.
* `Path.isAbsolute` says whether a path starts at the root.
-/

namespace Sharpen.Path

/-- The parts of a path that mean something. -/
def parts (path : Text) : List Text :=
  (Text.splitOn '/' path).filter fun p => !p.isEmpty && p != ['.']

/-- Whether a path starts at the root. -/
def isAbsolute (path : Text) : Bool :=
  path.startsWith "/"

/-- The last part of a path; the root and the empty path have none. -/
def name (path : Text) : Text :=
  (parts path).getLastD []

/-- The position of the dot that divides a name into stem and suffix. A dot at either end divides
nothing. -/
def dot? (name : Text) : Option Nat :=
  (name.reverse.findIdx? (· == '.')).bind fun back =>
    let i := name.length - 1 - back
    if 0 < i ∧ 0 < back then some i else none

/-- The name of a path without its suffix. -/
def stem (path : Text) : Text :=
  let n := name path
  match dot? n with
  | some i => n.take i
  | none => n

/-- The suffix of a path's name, with its dot. -/
def suffix (path : Text) : Text :=
  let n := name path
  match dot? n with
  | some i => n.drop i
  | none => []

/-- What a path starts with: two slashes stay two, three or more become one. -/
def root (path : Text) : Text :=
  match (path.takeWhile (· == '/')).length with
  | 0 => []
  | 2 => "//"
  | _ => "/"

/-- The path with the given start and parts; the empty path is a dot. -/
def ofParts (start : Text) (parts : List Text) : Text :=
  match start ++ Text.join "/" parts with
  | [] => ['.']
  | shown => shown

/-- A path written with its meaningful parts only. -/
def display (path : Text) : Text :=
  ofParts (root path) (parts path)

/-- A path behind another one; one that starts at the root stands alone. -/
def join (base path : Text) : Text :=
  if isAbsolute path then display path else ofParts (root base) (parts base ++ parts path)

/-- A location is the list of names that lead to it from the root. -/
abbrev Location := List Text

/-- The part of a path that leads back to the folder around. -/
def up : Text :=
  ".."

/-- Goes along the parts of a path from a location; the root has nothing around it. -/
def resolveFrom : Location → List Text → Location
  | here, [] => here
  | here, p :: r => resolveFrom (if p == up then here.dropLast else here ++ [p]) r

/-- The location from which a path leads on. -/
def origin (working : Location) (path : Text) : Location :=
  if isAbsolute path then [] else working

/-- The location that a path leads to from the working folder. -/
def resolve (working : Location) (path : Text) : Location :=
  resolveFrom (origin working path) (parts path)

/-- The path of a location. -/
def ofLocation (l : Location) : Text :=
  '/' :: Text.join "/" l

/-- The part of a path below another one, if it is below it. -/
def below? (base path : List Text) : Option (List Text) :=
  if base.isPrefixOf path then some (path.drop base.length) else none

end Sharpen.Path
