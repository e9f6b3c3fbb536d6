import Sharpen.FileTree.Path
import Sharpen.Text.Bytes

/-!
# Folders

A folder is a value: the list of what is in it, files with their contents and folders with theirs.

The entries of a folder are a list with names, and looking up takes the first of a name. Real
folders have no name twice; for other values the operations still do something sensible, since
setting an entry changes the one that is looked up.

## Main definitions

* `Folder.find?` and `Folder.set` look up and change one entry, `Folder.at?` and `Folder.setAt` an
  entry further down.
* `Folder.follow` goes along a path, every part of which has to be there.
* `Content` is what is behind a file's name: its bytes, or nothing if the name is a link that leads
  nowhere.
* `Folder` is the entries of a folder, one after the other.
* `Entry` is an entry of a folder.
* `Folder.files` is the locations of all files, in the order of the entries.
-/

namespace Sharpen

/-- What is behind a file's name: its bytes, or nothing if the name is a link that leads nowhere. -/
inductive Content where
  | bytes (b : Bytes)
  | brokenLink
deriving DecidableEq, Repr

/-- The entries of a folder, one after the other. -/
inductive Folder where
  | empty
  | file (name : Text) (content : Content) (rest : Folder)
  | folder (name : Text) (inner rest : Folder)
deriving DecidableEq, Repr, Inhabited

/-- An entry of a folder. -/
inductive Entry where
  | file (content : Content)
  | folder (inner : Folder)
deriving DecidableEq, Repr

/-- An entry with its name in front of a folder's entries. -/
def Entry.cons (name : Text) (rest : Folder) : Entry → Folder
  | .file content => .file name content rest
  | .folder inner => .folder name inner rest

namespace Folder

open Sharpen.Path (Location)

/-- The entry of that name. -/
def find? (name : Text) : Folder → Option Entry
  | .empty => none
  | .file n content rest => if n == name then some (.file content) else find? name rest
  | .folder n inner rest => if n == name then some (.folder inner) else find? name rest

/-- The folder with an entry of that name, in the place of the one that was there or at the end. -/
def set (name : Text) (entry : Entry) : Folder → Folder
  | .empty => entry.cons name .empty
  | .file n content rest =>
    if n == name then entry.cons name rest else .file n content (set name entry rest)
  | .folder n inner rest =>
    if n == name then entry.cons name rest else .folder n inner (set name entry rest)

/-- The folder below, which is empty if there is none. -/
def sub (name : Text) (f : Folder) : Folder :=
  match f.find? name with
  | some (.folder inner) => inner
  | _ => .empty

/-- The entry at a location. -/
def at? : Folder → Location → Option Entry
  | f, [] => some (.folder f)
  | f, [n] => f.find? n
  | f, n :: p =>
    match f.find? n with
    | some (.folder inner) => inner.at? p
    | _ => none

/-- The folder with an entry at a location; the folders on the way there are made. -/
def setAt (entry : Entry) : Location → Folder → Folder
  | [], f => f
  | [n], f => f.set n entry
  | n :: p, f => f.set n (.folder (setAt entry p (f.sub n)))

/-- The locations of all files, in the order of the entries. -/
def files : (here : Location) → Folder → List Location
  | _, .empty => []
  | here, .file n _ rest => (here ++ [n]) :: files here rest
  | here, .folder n inner rest => files (here ++ [n]) inner ++ files here rest

/-- Why a path cannot be followed. -/
inductive Obstacle where
  | missing
  | notFolder
deriving DecidableEq, Repr

/-- Goes along the parts of a path. All but the last have to be folders, and the last one need not
be there. -/
def follow (top : Folder) : Location → List Text → Except Obstacle Location
  | here, [] => .ok here
  | here, p :: r =>
    match top.at? here with
    | some (.folder _) => follow top (if p == Path.up then here.dropLast else here ++ [p]) r
    | some (.file (.bytes _)) => .error .notFolder
    | _ => .error .missing

end Folder

end Sharpen
