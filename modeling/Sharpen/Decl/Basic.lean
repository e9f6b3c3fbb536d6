import Sharpen.Text.Basic

/-!
# Declarations

What is read from headers and sources, and what C# is written from: parameters, data members,
methods, constants, static initializers and the types that hold them.

The same records are filled by the readers and joined by the plan. A declaration from a header has
no body and no file of implementation, one from a source has both. Positions and numbers are kept
for the order, and comments and region markers are kept with the declaration they belong to.

## Main definitions

* `Method.key` is the list of parameter keys by which a declaration and its implementation are
  paired; `Method.bodyText` is the body that is written for a method.
* `TypeDecl.targetFiles` lists the files that implement a type, and `TypeDecl.isPartial` says that
  there are at least two of them.
* `TypeKind` is the kinds of types.
* `Visibility` says who may use a declaration.
* `CommentSide` is the side of a parameter that a comment stands on.
* `StructForm` says how a struct was introduced.
-/

namespace Sharpen

/-- The kinds of types. -/
inductive TypeKind where
  | classType
  | structType
  | interfaceType
deriving DecidableEq, Repr, Inhabited

/-- Who may use a declaration. -/
inductive Visibility where
  | pub
  | prot
  | priv
  | intern
deriving DecidableEq, Repr, Inhabited

/-- The C# keyword of a visibility. -/
def Visibility.keyword : Visibility → Text
  | .pub => "public"
  | .prot => "protected"
  | .priv => "private"
  | .intern => "internal"

/-- The side of a parameter that a comment stands on. -/
inductive CommentSide where
  | before
  | after
deriving DecidableEq, Repr, Inhabited

/-- How a struct was introduced. -/
inductive StructForm where
  /-- `struct Name { … };` -/
  | plain
  /-- `typedef struct { … } Name;` -/
  | typedef
  /-- `typedef struct Tag { … } Name;` -/
  | tagged
deriving DecidableEq, Repr, Inhabited

/-- A comment inside a parameter list. -/
structure ParamComment where
  text : Text
  side : CommentSide
deriving DecidableEq, Repr, Inhabited

/-- Whether a comment runs to the end of its line. -/
def ParamComment.isLine (c : ParamComment) : Bool :=
  c.text.startsWith "//"

/-- One parameter of a parameter list. -/
structure Parameter where
  /-- The type without `const`, `*` and `&`. -/
  baseType : Text
  name : Text := []
  isConst : Bool := false
  isPointer : Bool := false
  isReference : Bool := false
  default? : Option Text := none
  comments : List ParamComment := []
  /-- The key under which declarations and implementations are compared. -/
  key : Text := []
  onNewLine : Bool := false
  indent : Nat := 0
  /-- Type and name as they were read. -/
  spelling : Text := []
deriving DecidableEq, Repr, Inhabited

/-- The comments that stand before a parameter. -/
def Parameter.commentsBefore (p : Parameter) : List ParamComment :=
  p.comments.filter (·.side == .before)

/-- The comments that stand after a parameter. -/
def Parameter.commentsAfter (p : Parameter) : List ParamComment :=
  p.comments.filter (·.side == .after)

/-- One entry of a constructor's list of member initializers. -/
structure Initializer where
  name : Text
  value : Text
deriving DecidableEq, Repr, Inhabited

/-- A data member. -/
structure Member where
  type : Text
  name : Text
  visibility : Visibility := .priv
  isStatic : Bool := false
  isConst : Bool := false
  isArray : Bool := false
  arraySize : Text := []
  initializer : Option Text := none
  comments : List Text := []
  trailingComment : Text := []
  regionStart : Text := []
  regionEnd : Text := []
  order : Nat := 0
deriving DecidableEq, Repr, Inhabited

/-- A method declaration, an implementation, or both joined. -/
structure Method where
  name : Text
  returnType : Text := []
  parameters : List Parameter := []
  visibility : Visibility := .priv
  isStatic : Bool := false
  isVirtual : Bool := false
  isConst : Bool := false
  isPure : Bool := false
  isConstructor : Bool := false
  isDestructor : Bool := false
  /-- A free function that has been given to a type. -/
  isLocal : Bool := false
  initializers : List Initializer := []
  hasInlineBody : Bool := false
  inlineBody : Text := []
  /-- The body an implementation brought. -/
  body : Option Text := none
  bodyIndent : Nat := 0
  owner : Text := []
  /-- The file that holds the body. -/
  targetFile : Text := []
  /-- The file the method was read from. -/
  originFile : Text := []
  order : Nat := 0
  position : Nat := 0
  headerComments : List Text := []
  sourceComments : List Text := []
  sourceCommentIndent : Nat := 0
  headerRegionStart : Text := []
  headerRegionEnd : Text := []
  sourceRegionStart : Text := []
  sourceRegionEnd : Text := []
deriving DecidableEq, Repr, Inhabited

namespace Method

/-- The keys of the parameters, by which declaration and implementation are paired. -/
def key (m : Method) : List Text :=
  m.parameters.map Parameter.key

/-- What two readings of one implementation have in common. -/
def identity (m : Method) : Text × Text × Nat × List Text :=
  (m.owner, m.name, m.parameters.length, m.key)

/-- Whether a body is known. -/
def hasBody (m : Method) : Bool :=
  m.hasInlineBody || m.body.isSome

/-- Whether an implementation is expected in a source file. -/
def needsBody (m : Method) : Bool :=
  !(m.hasInlineBody || m.isConstructor || m.isPure)

/-- The body that is written: an implementation's, else the inline one. -/
def bodyText (m : Method) : Option Text :=
  match m.body with
  | some b => some b
  | none => if m.hasInlineBody then some m.inlineBody else none

end Method

/-- A constant, defined by a preprocessor directive. -/
structure Constant where
  name : Text
  /-- The value as it was read. -/
  value : Text
  /-- The C# type. -/
  type : Text
  /-- The value in C#. -/
  literal : Text
  originFile : Text := []
  fromHeader : Bool := true
  comments : List Text := []
  trailingComment : Text := []
  position : Nat := 0
deriving DecidableEq, Repr, Inhabited

/-- The initialization of a static member outside its type. -/
structure StaticInit where
  owner : Text
  name : Text
  value : Text
  type : Text := "auto"
  isConst : Bool := false
  isArray : Bool := false
  arraySize : Text := []
  position : Nat := 0
deriving DecidableEq, Repr, Inhabited

/-- A class, struct or interface with everything that belongs to it. -/
structure TypeDecl where
  name : Text
  kind : TypeKind := .classType
  isExported : Bool := false
  bases : List Text := []
  members : List Member := []
  methods : List Method := []
  comments : List Text := []
  headerConstants : List Constant := []
  sourceConstants : List Constant := []
  /-- The file the type is declared in. -/
  file : Text := []
  structForm : Option StructForm := none
deriving DecidableEq, Repr, Inhabited

namespace TypeDecl

/-- Whether a type is an interface. -/
def isInterface (d : TypeDecl) : Bool :=
  d.kind == .interfaceType

/-- Only exported classes and interfaces are public. -/
def visibility (d : TypeDecl) : Visibility :=
  if d.kind == .structType || !d.isExported then .intern else .pub

/-- The visibility of what stands before the first access label. -/
def defaultVisibility (d : TypeDecl) : Visibility :=
  match d.kind with
  | .interfaceType => .pub
  | .structType => .intern
  | .classType => .priv

/-- The distinct files that hold bodies of the type, in the order they are first met. -/
def targetFiles (d : TypeDecl) : List Text :=
  d.methods.foldl (fun seen m =>
    if m.targetFile.isEmpty || seen.contains m.targetFile then seen else seen ++ [m.targetFile]) []

/-- Whether the bodies of a type are spread over several files. -/
def isPartial (d : TypeDecl) : Bool :=
  2 ≤ d.targetFiles.length

/-- The target files with their methods, in the order the files are first met. -/
def methodsByFile (d : TypeDecl) : List (Text × List Method) :=
  (d.methods.map Method.targetFile).eraseDups.map fun f =>
    (f, d.methods.filter (·.targetFile == f))

end TypeDecl

end Sharpen
