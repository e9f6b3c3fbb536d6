import Sharpen.CSharp.Class
import Sharpen.Decl.Owner
import Sharpen.Text.Lower

/-!
# Interfaces in C#

The contract of an interface lists its public instance methods. Its static methods go to a class of
extensions, where factories construct the type that implements the interface. Constants of an
exported interface go to a class of their own.

Bodies come from the implementations of the run, for an interface has none of its own. For a static
method without a body that is the first implementation of its name that has one; for a factory it is
the construction of the type that implements the interface, which is found in a body, or else is the
type that is called so by convention.

## Main definitions

* `implementingType?` finds the type that the factories of an interface construct.
* `Writer.interface` writes contract and extensions, `Writer.constantsClass` the constants.
* `contractMethods` is the methods of the contract.
* `staticMethods` is the public static methods.
* `isFactory` says whether a method makes an instance of an interface: it returns the interface and
  its name says so.
* `interfaceBase` is the name of an interface without the `I` that marks it.
-/

namespace Sharpen

/-- The methods of the contract. -/
def contractMethods (d : TypeDecl) : List Method :=
  d.methods.filter fun m =>
    m.visibility == .pub && !m.isStatic && !m.isConstructor && !m.isDestructor

/-- The public static methods. -/
def staticMethods (d : TypeDecl) : List Method :=
  d.methods.filter fun m => m.isStatic && m.visibility == .pub

/-- Whether a method makes an instance of an interface: it returns the interface and its name says
so. -/
def isFactory (m : Method) (interfaceName : Text) : Bool :=
  let returned := Text.trim (m.returnType.dropEndWhile fun c => c == '*' || c == '&' || c == ' ')
  returned == interfaceName &&
    (Text.hasInfix m.name "Instance" || Text.hasInfix m.name "Create" || m.name.startsWith "Get")

/-- The name of an interface without the `I` that marks it. -/
def interfaceBase (name : Text) : Text :=
  if isInterfaceName name then name.drop 1 else name

/-- The name that the implementation of an interface has by convention. -/
def conventionalImplementation (interfaceName : Text) : Text :=
  'C' :: interfaceBase interfaceName

/-- Reads the construction of an object and gives its type. -/
def newExpression : Reader Text := do
  Reader.wordStart
  Reader.text "new"
  Reader.blanks1
  let first ← Reader.satisfy fun c => 'A' ≤ c && c ≤ 'Z'
  let others ← Reader.many isWord
  Reader.blanks
  Reader.char '('
  pure (first :: others)

/-- A body, unless it is missing or empty. -/
def Method.bodyIfAny (m : Method) : Option Text :=
  m.body.filter fun b => !b.isEmpty

/-- The type that the factories of an interface construct: the first one that a body constructs,
else the conventional one. Without factories there is none. -/
def implementingType? (d : TypeDecl) (implementations : List Method) : Option Text :=
  let factories := (staticMethods d).filter fun m => isFactory m d.name
  let names := factories.map Method.name
  let bodies := factories.filterMap Method.bodyIfAny ++
    (implementations.filter fun m => names.contains m.name).filterMap Method.bodyIfAny
  if factories.isEmpty then none
  else
    some ((bodies.findSome? fun b => (newExpression.findAll b).head?).getD
      (conventionalImplementation d.name))

/-- The name of the class that holds the constants of an interface. -/
def constantsClassName (d : TypeDecl) : Text :=
  interfaceBase d.name ++ "Defines"

/-- Whether the constants of a type have a class of their own. -/
def hasConstantsClass (d : TypeDecl) : Bool :=
  d.isInterface && d.isExported && !d.constants.isEmpty

/-- What the instance is called that an extension method extends. -/
def instanceName (interfaceName : Text) : Text :=
  match interfaceBase interfaceName with
  | [] => "instance"
  | c :: r => Text.lower [c] ++ r

/-- The first line of a signature with one more parameter in front. -/
def addFirstParameter (parameter line : Text) : Text :=
  if line.endsWith "()" then line.dropLast ++ parameter ++ ")"
  else
    let opened := (line.takeWhile (· != '(')).length + 1
    let isOpen := line.endsWith "("
    if isOpen then line.take opened ++ parameter ++ line.drop opened ++ [',']
    else line.take opened ++ parameter ++ [',', ' '] ++ line.drop opened

/-- The lines of a signature with one more parameter in front. -/
def addParameterLine (parameter : Text) : List Text → List Text
  | [] => []
  | line :: r => addFirstParameter parameter line :: r

/-- The body of a static method of an interface: its own, else that of an implementation of the
same name, else for a factory the construction of the implementing type. -/
def extensionBody (d : TypeDecl) (implementing : Option Text) (implementations : List Method)
    (m : Method) : Option Text :=
  let elsewhere := (implementations.filter (·.name == m.name)).findSome? Method.bodyIfAny
  let constructed := if isFactory m d.name then
      implementing.map fun n : Text => (("return new " : Text) ++ n ++ "();")
    else none
  (m.body.or elsewhere).or constructed

namespace Writer

/-- Writes a static method of an interface as an extension method. -/
def extension (w : Writer) (types : TypeMap) (d : TypeDecl) (implementing : Option Text)
    (implementations : List Method) (m : Method) (level : Int) : Writer :=
  let returnType := types.mapType (if isFactory m d.name then d.name else m.returnType)
  let lines := signatureLines types ("public static " ++ returnType ++ " " ++ m.name) m.parameters
  let lines := addParameterLine ("this " ++ d.name ++ " " ++ instanceName d.name) lines
  ((w.lineAll m.headerComments level).signature lines level []).body m
    (extensionBody d implementing implementations m) level

/-- Writes the class of extensions of an interface. -/
def extensions (w : Writer) (types : TypeMap) (d : TypeDecl) (implementing : Option Text)
    (implementations : List Method) (level : Int) : Writer :=
  let w := w.line (d.visibility.keyword ++ " static class " ++ d.name ++ "Extensions") level
  let w := (staticMethods d).zipIdx.foldl (fun w (m, i) =>
    (if 0 < i then w.blank else w).extension types d implementing implementations m (level + 1))
    (w.line "\x7b" level)
  w.line "\x7d" level

/-- Writes the methods of the contract. -/
def contract (w : Writer) (types : TypeMap) (d : TypeDecl) (level : Int) : Writer :=
  (contractMethods d).foldl (fun w m =>
    let lines := signatureLines types (types.mapType m.returnType ++ " " ++ m.name) m.parameters
    ((w.lineAll m.headerComments level).signature lines level ";").blank) w

/-- Writes an interface with its extensions. -/
def interface (w : Writer) (types : TypeMap) (d : TypeDecl) (implementations : List Method)
    (createAttribute : Bool) (level : Int) : Writer :=
  let implementing := implementingType? d implementations
  let w := w.lineAll d.comments level
  let w := match implementing with
    | some name =>
      if createAttribute && d.isExported then
        w.line ("[Create(typeof(" ++ name ++ "))]") level
      else w
    | none => w
  let w := w.line (withBases (d.visibility.keyword ++ " interface " ++ d.name) d.bases) level
  let w := w.line "\x7b" level
  let w := if d.constants.isEmpty || hasConstantsClass d then w
    else (w.constants d.constants (level + 1) (some "internal")).blank
  let w := (w.contract types d (level + 1)).trimBlank.line "\x7d" level
  if (staticMethods d).isEmpty then w
  else w.blank.extensions types d implementing implementations level

/-- Writes the class that holds the constants of an interface. -/
def constantsClass (w : Writer) (d : TypeDecl) (level : Int) : Writer :=
  let w := w.line ("public static class " ++ constantsClassName d) level
  ((w.line "\x7b" level).constants d.constants (level + 1) (some "public")).line "\x7d" level

end Writer

end Sharpen
