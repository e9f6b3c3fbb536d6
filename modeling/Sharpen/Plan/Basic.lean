import Sharpen.Decl.Basic
import Sharpen.Log

/-!
# Plans

A plan says which file holds which part of which type, once headers and sources have been brought
together.

Sections refer to the type as a whole and list the methods that they show. A type in one section is
shown in it with all its methods; one in several is partial. Notices are about pairing, owners and
initializers, and those that say that something was not done are warnings.

## Main definitions

* `Section` is the part of a type that one file holds, `OutputFile` a file, `Plan` all of them.
* `PlanNotice` lists what bringing them together reports; `Plan.warnings` are the warnings.
* `TypeDecl.constants` are the constants of a type in the order they are written.
* `OutputFile.isInterfaceOnly` says whether a file holds interfaces and nothing else.
* `PlanNotice.level` says how serious a report is.
* `PlanNotice.message` is the wording of a report.
-/

namespace Sharpen

/-- The part of one type that is written into one file. -/
structure Section where
  type : TypeDecl
  methods : List Method := []
  /-- Whether the part holds the members and constants. -/
  isMain : Bool := true
  isPartial : Bool := false
deriving DecidableEq, Repr

/-- One file to be written. -/
structure OutputFile where
  name : Text
  sections : List Section := []
  /-- Types that a source file defines. -/
  embedded : List TypeDecl := []
  banner : List Text := []
  /-- The header whose namespace the file is in. -/
  headerStem : Text := []
deriving DecidableEq, Repr

/-- Whether a file holds interfaces and nothing else. -/
def OutputFile.isInterfaceOnly (f : OutputFile) : Bool :=
  let types := f.sections.map Section.type ++ f.embedded
  !types.isEmpty && types.all TypeDecl.isInterface

/-- What bringing headers and sources together reports. -/
inductive PlanNotice where
  | declaredAgain (type header : Text)
  | unknownOwner (stem owner name : Text)
  | matchedByName (stem owner name : Text)
  | ambiguous (stem owner name : Text)
  | undeclared (stem owner name : Text)
  | noMember (stem owner name : Text)
  | unowned (stem : Text) (functions constants : Nat)
  | headerOnly (type : Text) (methods implementations : Nat)
  | fragmentMoved (type target file header : Text)
deriving DecidableEq, Repr

namespace PlanNotice

/-- How serious a report is. -/
def level : PlanNotice → Level
  | undeclared _ _ _ => .debug
  | _ => .warning

/-- The wording of a report. -/
def message : PlanNotice → Text
  | declaredAgain type header =>
    "type " ++ type ++ " declared again in " ++ header ++ "; keeping the first"
  | unknownOwner stem owner name =>
    stem ++ ": implementation " ++ owner ++ "::" ++ name ++ " has no known type; dropped"
  | matchedByName stem owner name =>
    stem ++ ": " ++ owner ++ "::" ++ name ++ " matched by name only; parameter types differ"
  | ambiguous stem owner name =>
    stem ++ ": " ++ owner ++ "::" ++ name ++ " is ambiguous between overloads; kept separately"
  | undeclared stem owner name => stem ++ ": " ++ owner ++ "::" ++ name ++ " has no declaration"
  | noMember stem owner name =>
    stem ++ ": static initializer " ++ owner ++ "::" ++ name ++ " has no member; dropped"
  | unowned stem functions constants =>
    stem ++ ": no type to own " ++ Text.ofNat functions ++ " local function(s) and "
      ++ Text.ofNat constants ++ " define(s); dropped"
  | headerOnly type methods implementations =>
    type ++ " generated from header-only content: " ++ Text.ofNat methods ++ " header method(s), "
      ++ Text.ofNat implementations ++ " implementation(s); bodies are placeholders"
  | fragmentMoved type target file header =>
    type ++ " fragment from " ++ target ++ " written to " ++ file ++
    ".cs to stay in the namespace of "
      ++ header

/-- The record of a report. -/
def toRecord (n : PlanNotice) : Record :=
  ⟨n.level, "reconcile", n.message⟩

end PlanNotice

/-- The files to be written and what they are written from. -/
structure Plan where
  files : List OutputFile := []
  /-- The types of the headers, each name once. -/
  types : List TypeDecl := []
  /-- All implementations in the sources. -/
  implementations : List Method := []
  notices : List PlanNotice := []
deriving DecidableEq, Repr

namespace Plan

/-- The warnings among the reports. -/
def warnings (p : Plan) : List Text :=
  (p.notices.filter fun n => n.level == .warning).map PlanNotice.message

/-- The file with the given name. -/
def file? (p : Plan) (name : Text) : Option OutputFile :=
  p.files.find? (·.name == name)

end Plan

/-- The constants of a type: those of its header first, then those of the sources by file and
position. -/
def TypeDecl.constants (d : TypeDecl) : List Constant :=
  d.headerConstants ++ d.sourceConstants.mergeSort fun a b =>
    if a.originFile == b.originFile then a.position ≤ b.position
    else Text.precedes a.originFile b.originFile

end Sharpen
