import Sharpen.FileTree.Exclude
import Sharpen.FileTree.Folder
import Sharpen.Log

/-!
# Source files

Headers and sources are told apart by their suffix, and found either by searching a folder or by
name.

A search goes through all folders below the one that is given, but for those that are ignored by
name, skipped by location or excluded by a pattern. Files are kept by their suffix, in any case of
its letters. By name, files are taken from anywhere the name leads to from the folder, and reported
if they are not there or are of another kind.

## Main definitions

* `Folder.search` gives the files below a folder, without what is excluded.
* `SourceFiles.scan` sorts them into headers and sources, by path; `SourceFiles.scanPath` does so
  for the folder that a path leads to.
* `SourceFiles.select` takes files by name.
* `ignoredFolders` is the names of folders that are never searched.
* `Exclusion` is what a search leaves out: what the rules exclude, and the folders at some
  locations.
* `SourceKind` is what a file is, by its suffix.
-/

namespace Sharpen

open Sharpen.Path (Location)

/-- The path of a location below a folder. -/
def relativePath (l : Location) : Text :=
  Text.join "/" l

/-- The names of folders that are never searched. -/
def ignoredFolders : List Text :=
  [".git", ".hg", ".svn", ".vs", ".venv", "__pycache__", "Debug", "Release", "x64"]

/-- What a search leaves out: what the rules exclude, and the folders at some locations. -/
structure Exclusion where
  rules : List ExcludeRule := []
  skip : List Location := []
deriving DecidableEq, Repr

/-- Whether a folder is searched: `root` is where the search starts, `here` leads from there. -/
def Exclusion.enters (e : Exclusion) (root here : Location) : Bool :=
  !ignoredFolders.contains (here.getLastD []) && !e.skip.contains (root ++ here)
    && !isExcluded e.rules (relativePath here) true

/-- Whether a file is found. -/
def Exclusion.keeps (e : Exclusion) (here : Location) : Bool :=
  !isExcluded e.rules (relativePath here) false

/-- The files below a folder that are not left out, by the way that leads to them. -/
def Folder.search (e : Exclusion) (root : Location) : (here : Location) → Folder → List Location
  | _, .empty => []
  | here, .file n _ rest =>
    (if e.keeps (here ++ [n]) then [here ++ [n]] else []) ++ search e root here rest
  | here, .folder n inner rest =>
    (if e.enters root (here ++ [n]) then search e root (here ++ [n]) inner else [])
      ++ search e root here rest

/-- What a file is, by its suffix. -/
inductive SourceKind where
  | header
  | source
deriving DecidableEq, Repr

/-- The kind of a file with that suffix. -/
def SourceKind.ofSuffix? (suffix : Text) : Option SourceKind :=
  let s := suffix.lower
  if s == ".h" then some .header else if s == ".cpp" then some .source else none

/-- The files of a conversion, by path. -/
structure SourceFiles where
  headers : List Text := []
  sources : List Text := []
deriving DecidableEq, Repr

namespace SourceFiles

/-- The number of files. -/
def size (s : SourceFiles) : Nat :=
  s.headers.length + s.sources.length

/-- The files with one more. -/
def add (s : SourceFiles) (path : Text) : SourceKind → SourceFiles
  | .header => { s with headers := s.headers ++ [path] }
  | .source => { s with sources := s.sources ++ [path] }

/-- The paths of that kind, in order. -/
def ofKind (kind : SourceKind) (paths : List Text) : List Text :=
  (paths.filter fun p => SourceKind.ofSuffix? (Path.suffix p) == some kind).mergeSort Text.precedes

/-- The component that searches. -/
def component : Text :=
  "scanner"

/-- The headers and sources below a folder, by their paths from there. -/
def scan (e : Exclusion) (root : Location) (f : Folder) : SourceFiles :=
  let paths := (f.search e root []).map relativePath
  { headers := ofKind .header paths, sources := ofKind .source paths }

/-- What a search reports. -/
def scanRecord (s : SourceFiles) (root : Location) : Record :=
  { level := .debug, component := component
    message := ("Found " : Text) ++ Text.ofNat s.headers.length ++ " header(s) and "
      ++ Text.ofNat s.sources.length ++ " source file(s) under " ++ Path.ofLocation root }

/-- Why a path cannot be searched. -/
inductive ScanError where
  | notFound (path : Text)
  | notFolder (path : Text)
deriving DecidableEq, Repr

/-- The message of a failure. -/
def ScanError.message : ScanError → Text
  | .notFound path => ("Source path not found: " : Text) ++ path
  | .notFolder path => ("Source path is not a directory: " : Text) ++ path

/-- Searches the folder that a path leads to, and gives its location too. The paths in `skip` are
left out. -/
def scanPath (top : Folder) (working : Location) (patterns skip : List Text) (path : Text) :
    Except ScanError (SourceFiles × Location) :=
  let root := Path.resolve working path
  match top.at? root with
  | some (.folder f) =>
    .ok (scan ⟨ExcludeRule.ofPatterns patterns, skip.map (Path.resolve working)⟩ root f, root)
  | some (.file (.bytes _)) => .error (.notFolder path)
  | _ => .error (.notFound path)

/-- A warning of the search. -/
def warning (message : Text) : Record :=
  { level := .warning, component := component, message := message }

/-- Takes files by name from the folder at `root`. A name that is no file, or has another suffix,
is reported. -/
def select (isFile : Text → Bool) (root : Text) :
    List Text → SourceFiles → SourceFiles × List Record
  | [], s => (s, [])
  | n :: r, s =>
    let name : Text := n.trim
    let path := Path.join root name
    if name.isEmpty then select isFile root r s
    else if !isFile path then
      let (s, records) := select isFile root r s
      (s, warning (("File '" : Text) ++ name ++ "' not found in '" ++ root ++ "'") :: records)
    else
      match SourceKind.ofSuffix? (Path.suffix path) with
      | some kind => select isFile root r (s.add path kind)
      | none =>
        let (s, records) := select isFile root r s
        (s, warning (("Unsupported file type '" : Text) ++ (Path.suffix path).lower
          ++ "' for file '" ++ name ++ "'") :: records)

end SourceFiles

end Sharpen
