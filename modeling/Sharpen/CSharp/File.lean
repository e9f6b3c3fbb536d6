import Sharpen.CSharp.Interface
import Sharpen.Plan.Texts
import Sharpen.Settings.Basic

/-!
# Files in C#

A file has a banner, what it uses, and its types in a namespace.

A file is written for every output file of a plan, and one more for the constants of each interface
that is exported and has any. The contents are kept by name. What a file opens depends on what is in
it: interfaces need other namespaces than classes do, and a file with constants of an interface is
opened where the interface is.

## Main definitions

* `renderFile` writes a file of a plan, `renderConstantsFile` the constants of an interface.
* `renderPlan` writes all files of a plan; `fileContents` gives them by file name.
* `convertTexts` converts header and source texts.
* `GeneratedFile` is a file that has been generated.
* `fileWriter` is the writer for a file.
* `Writer.openFile` writes everything before the types: banner, usings, and the opening of the
  namespace.
-/

namespace Sharpen

/-- A file that has been generated. -/
structure GeneratedFile where
  name : Text
  content : Text
deriving DecidableEq, Repr

/-- The name of a generated file in its directory. -/
def GeneratedFile.fileName (f : GeneratedFile) : Text :=
  f.name ++ ".cs"

/-- The level of types. -/
def typeLevel : Int := 1

/-- The writer for a file. Without braces around the namespace everything is one level further
out. -/
def fileWriter (s : Settings) : Writer :=
  { shift := if s.scope.fileScoped then -1 else 0 }

/-- Writes everything before the types: banner, usings, and the opening of the namespace. -/
def Writer.openFile (w : Writer) (s : Settings) (banner usings : List Text) (scope : Text) :
    Writer :=
  let w := if banner.isEmpty then w else (w.lineAll banner 0).blank
  let w := if usings.isEmpty then w
    else (w.lineAll (usings.map fun u : Text => ("using " : Text) ++ u ++ ";") 0).blank
  if s.scope.fileScoped then (w.line ("namespace " ++ scope ++ ";") 0).blank
  else (w.line ("namespace " ++ scope) 0).line "\x7b" 0

/-- Writes what closes the namespace. -/
def Writer.closeFile (w : Writer) (s : Settings) : Writer :=
  if s.scope.fileScoped then w.trimBlank else w.trimBlank.line "\x7d" 0

/-- The full name of the class that holds the constants of an interface. -/
def constantsUsing (s : Settings) (d : TypeDecl) : Text :=
  s.scope.resolve d.file ++ "." ++ constantsClassName d

/-- Writes a part of a type. -/
def Writer.typeSection (w : Writer) (s : Settings) (implementations : List Method) (p : Section) :
    Writer :=
  if p.type.isInterface then
    w.interface s.typeMap p.type implementations s.createAttribute typeLevel
  else w.classSection s.typeMap p typeLevel

/-- Writes a file. It uses the constants of the interfaces that other files hold. -/
def renderFile (s : Settings) (implementations : List Method) (constantUsings : List Text)
    (f : OutputFile) : GeneratedFile :=
  let own := (f.sections.filter fun p => hasConstantsClass p.type).map fun p =>
    constantsUsing s p.type
  let usings := s.scope.usingsFor f.isInterfaceOnly ++
    (constantUsings.filter fun u => !own.contains u).map (("static " : Text) ++ ·)
  let scope := s.scope.resolve (nonemptyOr f.headerStem f.name)
  let w := (fileWriter s).openFile s f.banner usings scope
  let w := f.embedded.foldl (fun w d => (w.embeddedType s.typeMap d typeLevel).blank) w
  let w := f.sections.foldl (fun w p => (w.typeSection s implementations p).blank) w
  { name := f.name, content := (w.closeFile s).render s.lineEnding }

/-- Writes the file with the constants of an interface. -/
def renderConstantsFile (s : Settings) (d : TypeDecl) : GeneratedFile :=
  let w := (fileWriter s).openFile s [] (s.scope.usingsFor true) (s.scope.resolve d.file)
  let w := (w.constantsClass d typeLevel).closeFile s
  { name := constantsClassName d, content := w.render s.lineEnding }

/-- Writes all files of a plan, by name. -/
def renderPlan (s : Settings) (p : Plan) : List GeneratedFile :=
  let withConstants := p.types.filter hasConstantsClass
  let usings := withConstants.map (constantsUsing s)
  (p.files.map (renderFile s p.implementations usings)
      ++ withConstants.map (renderConstantsFile s)).mergeSort fun a b =>
    Text.precedes a.name b.name

/-- The contents by file name. Of several files with one name the last one stays. -/
def fileContents (files : List GeneratedFile) : List NamedText :=
  let last := files.zipIdx.filter fun (f, i) => !(files.drop (i + 1)).any (·.name == f.name)
  sortTexts (last.map fun (f, _) => (f.fileName, f.content))

/-- What comes of converting texts. -/
structure Conversion where
  contents : List NamedText
  warnings : List Text
  records : List Record
deriving Repr

/-- Converts header and source texts. -/
def convertTexts (s : Settings) (headers sources : List NamedText) : Conversion :=
  let (plan, records) := Plan.ofTexts headers sources
  { contents := fileContents (renderPlan s plan), warnings := plan.warnings, records := records }

end Sharpen
