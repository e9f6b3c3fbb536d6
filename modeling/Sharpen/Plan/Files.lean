import Sharpen.Plan.Reconcile

/-!
# Files of a plan

Every header with types gets a file of its own. A class whose bodies come from several files is
split, and each part goes where its bodies came from, as long as it can stay in the namespace of its
header.

Files are made in the order of the headers, then types are laid out one after the other, and types
that sources define come last. A fragment goes to the file its bodies came from, unless that file is
in the namespace of another header; then it goes to one that is named after both.

## Main definitions

* `FileTable` are the files while the types are laid out.
* `planFiles` lays out the types, `Plan.ofParts` makes the plan of headers and sources.
* `FileTable.addSection` adds a part of a type to the file with the given name.
* `addHeader` makes the file of a header, unless the header has no types.
* `addFragment` adds the part of a type that is implemented in `target`.
* `isSplit` says whether a type is split over several files.
-/

namespace Sharpen

/-- Files by name, in the order they are first met, and the reports of laying them out. -/
structure FileTable where
  files : List OutputFile := []
  notices : List PlanNotice := []
deriving DecidableEq, Repr

namespace FileTable

/-- The file with the given name. -/
def find? (t : FileTable) (name : Text) : Option OutputFile :=
  t.files.find? (·.name == name)

/-- Changes the file with the given name, which is made if it is missing. -/
def update (t : FileTable) (name : Text) (f : OutputFile → OutputFile) : FileTable :=
  match t.files.findIdx? (·.name == name) with
  | some i => { t with files := t.files.modify i f }
  | none => { t with files := t.files ++ [f { name := name }] }

/-- Adds a part of a type to the file with the given name. -/
def addSection (t : FileTable) (name : Text) (s : Section) : FileTable :=
  t.update name fun f => { f with sections := f.sections ++ [s] }

end FileTable

/-- Makes the file of a header, unless the header has no types. -/
def addHeader (t : FileTable) (h : Header) : FileTable :=
  if h.types.isEmpty then t
  else t.update h.stem fun f => { f with headerStem := h.stem, banner := h.banner }

/-- Adds the part of a type that is implemented in `target`. A file that is in the namespace of
another header cannot take it; then it goes into a file of its own. -/
def addFragment (d : TypeDecl) (t : FileTable) (target : Text) : FileTable :=
  let free := (t.find? target).all fun f => f.headerStem.isEmpty || f.headerStem == d.file
  let name := if free then target else target ++ "_" ++ d.name
  let t := if free then t
    else { t with notices := t.notices ++ [.fragmentMoved d.name target name d.file] }
  t.update name fun f =>
    { f with
      headerStem := nonemptyOr f.headerStem d.file
      sections := f.sections ++
        [{ type := d
           methods := d.methods.filter (·.targetFile == target)
           isMain := false
           isPartial := true }] }

/-- Whether a type is split over several files. -/
def isSplit (d : TypeDecl) : Bool :=
  d.isPartial && !d.isInterface

/-- Lays out a type. -/
def addType (t : FileTable) (d : TypeDecl) : FileTable :=
  let atHome (file : Text) : Bool := file.isEmpty || file == d.file
  let methods := if isSplit d then d.methods.filter fun m => atHome m.targetFile else d.methods
  let t := t.addSection d.file
    { type := d, methods := methods, isMain := true, isPartial := isSplit d }
  if isSplit d then
    let targets := (d.methods.map Method.targetFile).eraseDups.filter fun f => !atHome f
    (targets.mergeSort Text.precedes).foldl (addFragment d) t
  else t

/-- Lays out the types that a source defines; its banner goes to the file of the same name if that
has none. -/
def addSource (t : FileTable) (s : Source) : FileTable :=
  let t := if s.structs.isEmpty then t
    else t.update s.stem fun f => { f with embedded := f.embedded ++ s.structs }
  if (t.find? s.stem).isSome then
    t.update s.stem fun f => { f with banner := nonemptyOr f.banner s.banner }
  else t

/-- The files for everything that has been brought together. -/
def planFiles (r : Reconciled) : FileTable :=
  r.sources.foldl addSource (r.types.foldl addType (r.headers.foldl addHeader {}))

namespace Plan

/-- The plan for headers and sources: files by name, without those that hold no type. -/
def ofParts (headers : List Header) (sources : List Source) : Plan :=
  let r := reconcileTypes headers sources
  let table := planFiles r
  { files := (table.files.mergeSort fun a b => Text.precedes a.name b.name).filter fun f =>
      !(f.sections.isEmpty && f.embedded.isEmpty)
    types := r.types
    implementations := r.implementations
    notices := r.notices ++ table.notices }

end Plan

end Sharpen
