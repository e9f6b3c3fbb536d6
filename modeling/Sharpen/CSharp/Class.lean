import Sharpen.CSharp.Method
import Sharpen.Plan.Basic

/-!
# Classes in C#

Classes and structs are both written as classes. The main part of a class has its constants and
members; every part has its own methods.

A type has its constants and members in its main part, in the order in which they were declared, and
its methods behind them. What is known of a type decides a good part of its declaration: whether it
is static, whether it is partial, and which bases it lists. Types that a source file defines are
written in the same way at a deeper level.

## Main definitions

* `classDeclaration` is the line that declares a class.
* `Writer.classSection` writes a part of a class, `Writer.embeddedType` a type of a source file.
* `isStaticClass` says whether a class is static: it has members or methods, all of them static, and
  it is neither constructed nor destroyed.
* `Writer.classData` writes the constants and members of a class.
* `Writer.classMethods` writes the methods of a part of the type `owner`, with a blank line between
  them and what precedes.
-/

namespace Sharpen

/-- Whether a class is static: it has members or methods, all of them static, and it is neither
constructed nor destroyed. -/
def isStaticClass (d : TypeDecl) : Bool :=
  d.kind != .structType && !(d.members.isEmpty && d.methods.isEmpty)
    && !(d.methods.any fun m => m.isConstructor || m.isDestructor)
    && d.members.all Member.isStatic && d.methods.all Method.isStatic

/-- A declaration with its base types. -/
def withBases (declaration : Text) (bases : List Text) : Text :=
  if bases.isEmpty then declaration else declaration ++ " : " ++ Text.join ", " bases

/-- The line that declares a class. -/
def classDeclaration (d : TypeDecl) (isPartial : Bool) : Text :=
  let modifiers := [d.visibility.keyword] ++ wordIf (isStaticClass d) "static"
    ++ wordIf isPartial "partial"
  withBases (Text.join " " modifiers ++ " class " ++ d.name) d.bases

namespace Writer

/-- Writes the constants and members of a class. -/
def classData (w : Writer) (types : TypeMap) (d : TypeDecl) (level : Int) : Writer :=
  let w := if d.constants.isEmpty then w else (w.constants d.constants level none).blank
  d.members.foldl (fun w m => w.member types m level) w

/-- Writes the methods of a part of the type `owner`, with a blank line between them and what
precedes. -/
def classMethods (w : Writer) (types : TypeMap) (methods : List Method) (owner : Text)
    (afterData : Bool) (level : Int) : Writer :=
  methods.zipIdx.foldl (fun w (m, i) =>
    (if afterData || 0 < i then w.blank else w).method types m owner level) w

/-- Writes a part of a class. -/
def classSection (w : Writer) (types : TypeMap) (s : Section) (level : Int) : Writer :=
  let d := s.type
  let w := if s.isMain then w.lineAll d.comments level else w
  let w := (w.line (classDeclaration d s.isPartial) level).line "\x7b" level
  let w := if s.isMain then w.classData types d (level + 1) else w
  let hasData := s.isMain && !(d.constants.isEmpty && d.members.isEmpty)
  let w := w.classMethods types s.methods d.name hasData (level + 1)
  w.trimBlank.line "\x7d" level

/-- Writes a type that a source file defines. -/
def embeddedType (w : Writer) (types : TypeMap) (d : TypeDecl) (level : Int) : Writer :=
  w.classSection types { type := d, methods := d.methods } level

end Writer

end Sharpen
