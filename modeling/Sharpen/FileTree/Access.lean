import Sharpen.FileTree.Folder
import Sharpen.Text.Quoted

/-!
# Access to files

Reading and changing a folder through paths, which lead on from a working folder unless they start
at the root. Every operation that fails says why, and leaves what it has done until then.

The folder is a value that an operation reads and gives back changed. A failure carries its reason
and the path, as the system would report them, and the changes made before it stay. Making folders
makes all that are missing on the way and accepts those that are there.

## Main definitions

* `FileError.message` is the message of a failure.
* `Disk` is a computation on a folder that may fail.
* `Disk.read`, `Disk.write`, `Disk.append` and `Disk.makeFolders` are the operations.
* `FileFault` says why an operation on a file fails.
* `FileError` is a failure, with the path it is about.
* `Folder.entry?` is what a path leads to, if there is anything.
-/

namespace Sharpen

open Sharpen.Path (Location)

/-- Why an operation on a file fails. -/
inductive FileFault where
  | notFound
  | alreadyThere
  | notFolder
  | isFolder
deriving DecidableEq, Repr

/-- A failure, with the path it is about. -/
structure FileError where
  fault : FileFault
  path : Text
deriving DecidableEq, Repr

/-- The number of a failure and its description. -/
def FileFault.description : FileFault → Nat × Text
  | .notFound => (2, "No such file or directory")
  | .alreadyThere => (17, "File exists")
  | .notFolder => (20, "Not a directory")
  | .isFolder => (21, "Is a directory")

/-- The message of a failure. -/
def FileError.message (e : FileError) : Text :=
  let (number, text) := e.fault.description
  ("[Errno " : Text) ++ Text.ofNat number ++ "] " ++ text ++ ": " ++ e.path.quoted

namespace Folder

/-- What a path leads to, if there is anything. -/
def entry? (top : Folder) (working : Location) (path : Text) : Option Entry :=
  match top.follow (Path.origin working path) (Path.parts path) with
  | .ok l => top.at? l
  | .error _ => none

/-- Whether a path leads to a folder. -/
def isFolder (top : Folder) (working : Location) (path : Text) : Bool :=
  match top.entry? working path with
  | some (.folder _) => true
  | _ => false

/-- Whether a path leads to a file that can be read. -/
def isFile (top : Folder) (working : Location) (path : Text) : Bool :=
  match top.entry? working path with
  | some (.file (.bytes _)) => true
  | _ => false

/-- Whether a path leads to anything. -/
def isThere (top : Folder) (working : Location) (path : Text) : Bool :=
  top.isFolder working path || top.isFile working path

end Folder

/-- A computation on a folder that may fail. -/
abbrev Disk := ExceptT FileError (StateM Folder)

namespace Disk

/-- The location of a path, all parts of which but the last have to be there. -/
def locate (working : Location) (path : Text) : Disk Location := do
  match (← get).follow (Path.origin working path) (Path.parts path) with
  | .ok l => pure l
  | .error .missing => throw ⟨.notFound, path⟩
  | .error .notFolder => throw ⟨.notFolder, path⟩

/-- The bytes of a file. -/
def read (working : Location) (path : Text) : Disk Bytes := do
  let l ← locate working path
  match (← get).at? l with
  | some (.file (.bytes b)) => pure b
  | some (.folder _) => throw ⟨.isFolder, path⟩
  | _ => throw ⟨.notFound, path⟩

/-- Gives a file the bytes that `f` makes of those it has; a new file has none. -/
def change (working : Location) (path : Text) (f : Bytes → Bytes) : Disk Unit := do
  let l ← locate working path
  match (← get).at? l with
  | some (.folder _) => throw ⟨.isFolder, path⟩
  | some (.file (.bytes b)) => modify (Folder.setAt (.file (.bytes (f b))) l)
  | _ => modify (Folder.setAt (.file (.bytes (f []))) l)

/-- Writes a file. -/
def write (working : Location) (path : Text) (bytes : Bytes) : Disk Unit :=
  change working path fun _ => bytes

/-- Adds to the end of a file. -/
def append (working : Location) (path : Text) (bytes : Bytes) : Disk Unit :=
  change working path fun b => b ++ bytes

/-- Makes a folder. -/
def makeFolder (working : Location) (path : Text) : Disk Unit := do
  let l ← locate working path
  match (← get).at? l with
  | some _ => throw ⟨.alreadyThere, path⟩
  | none => modify (Folder.setAt (.folder .empty) l)

/-- Makes a folder unless it is there. -/
def ensureFolder (working : Location) (path : Text) : Disk Unit :=
  tryCatch (makeFolder working path) fun e => do
    if e.fault != .notFound && (← get).isFolder working path then pure () else throw e

/-- Makes a folder and those around it, unless they are there; the parts of its path are given from
the last to the first. -/
def makeFoldersFrom (working : Location) (root : Text) : List Text → Disk Unit
  | [] => ensureFolder working (Path.ofParts root [])
  | p :: r =>
    let path := Path.ofParts root (p :: r).reverse
    tryCatch (ensureFolder working path) fun e => do
      if e.fault == .notFound then
        makeFoldersFrom working root r
        ensureFolder working path
      else throw e

/-- Makes a folder and those around it, unless they are there. -/
def makeFolders (working : Location) (path : Text) : Disk Unit :=
  makeFoldersFrom working (Path.root path) (Path.parts path).reverse

end Disk

end Sharpen
