import Sharpen.CSharp.Member

/-!
# Methods in C#

A signature stays on one line unless a parameter has a comment. Then every parameter has a line of
its own, and the comma comes before a `//` comment and after a `/* */` comment, so that no comment
swallows it.

What precedes the parameters is the visibility, the words for static, virtual and the like, the
return type and the name; constructors and destructors have names of their own. A method without a
body gets one that says so, except in a contract, where a semicolon ends the signature.

## Main definitions

* `parameterText` writes a parameter, `signatureLines` a signature, `methodHead` what precedes the
  parameters.
* `Writer.method` writes a method with its comments and its body.
* `parameterLines` is the lines of a parameter with comments.
* `contractHead` is what precedes the parameters of a method in the contract of the interface
  `owner`.
* `Writer.signatureLine` writes one line of a signature; a tab in front stands for a deeper level.
* `Writer.signature` writes the lines of a signature with a text behind the last one.
-/

namespace Sharpen

/-! ### Signatures -/

/-- A parameter without its comments; one without a name is called after its place. -/
def parameterText (types : TypeMap) (p : Parameter) (index : Nat) : Text :=
  let modifier : Text :=
    if p.isPointer && !p.isConst then "out "
    else if p.isReference && !p.isConst then "ref "
    else []
  let name := if p.name.isEmpty then "arg" ++ Text.ofNat index else p.name
  modifier ++ types.mapType p.baseType ++ " " ++ name ++
    (match p.default? with
     | none | some [] => []
     | some value => " = " ++ convertValue value)

/-- The lines of a parameter with comments. Lines start with a tab, which stands for a deeper
level. -/
def parameterLines (types : TypeMap) (p : Parameter) (index : Nat) (isLast : Bool) : List Text :=
  let before := p.commentsBefore
  let text := (before.filter fun c => !c.isLine).foldl
    (fun (text : Text) (c : ParamComment) => c.text ++ " " ++ text) (parameterText types p index)
  let above := (before.filter ParamComment.isLine).map fun c => '\t' :: c.text
  let lineAfter := (p.commentsAfter.filter ParamComment.isLine).map ParamComment.text
  let blockAfter := (p.commentsAfter.filter fun c => !c.isLine).map ParamComment.text
  let text := text ++ (if blockAfter.isEmpty then [] else ' ' :: Text.join " " blockAfter)
  let closing : Text := if isLast then ")" else ","
  above ++
    (if lineAfter.isEmpty then ['\t' :: (text ++ closing)]
     else if isLast then ['\t' :: (text ++ " " ++ Text.join " " lineAfter), ")"]
     else ['\t' :: (text ++ closing ++ " " ++ Text.join " " lineAfter)])

/-- The lines of a signature: `head` with its parameters. Lines of a deeper level start with a
tab. -/
def signatureLines (types : TypeMap) (head : Text) (ps : List Parameter) : List Text :=
  if ps.any fun p => !p.comments.isEmpty then
    (head ++ "(") :: (ps.mapIdx fun i p => parameterLines types p i (i + 1 == ps.length)).flatten
  else [head ++ "(" ++ Text.join ", " (ps.mapIdx fun i p => parameterText types p i) ++ ")"]

/-- What precedes the parameters of a method of the type `owner`. -/
def methodHead (types : TypeMap) (m : Method) (owner : Text) : Text :=
  let modifiers := [m.visibility.keyword] ++ wordIf m.isStatic "static"
    ++ wordIf (m.isVirtual && !m.isStatic) "virtual"
  if m.isDestructor then '~' :: owner
  else if m.isConstructor then Text.join " " modifiers ++ " " ++ owner
  else Text.join " " modifiers ++ " " ++ types.mapType m.returnType ++ " " ++ m.name

/-- What precedes the parameters of a method in the contract of the interface `owner`. -/
def contractHead (types : TypeMap) (m : Method) (owner : Text) : Text :=
  if m.isDestructor then '~' :: owner
  else types.mapType m.returnType ++ " " ++ (if m.isConstructor then owner else m.name)

namespace Writer

/-- Writes one line of a signature; a tab in front stands for a deeper level. -/
def signatureLine (w : Writer) (t : Text) (level : Int) : Writer :=
  match t with
  | '\t' :: r => w.line r (level + 1)
  | _ => w.line t level

/-- Writes the lines of a signature with a text behind the last one. -/
def signature (w : Writer) (lines : List Text) (level : Int) (ending : Text) : Writer :=
  lines.zipIdx.foldl (fun w (t, i) =>
    w.signatureLine (if i + 1 == lines.length then t ++ ending else t) level) w

end Writer

/-! ### Bodies -/

/-- What stands for the body of a constructor that has none. -/
def constructorPlaceholder : Text :=
  "// TODO: Initialize members"

/-- What stands for the body of a method that has none. -/
def methodPlaceholder : List Text :=
  ["// TODO: Implementation not found", "throw new NotImplementedException();"]

namespace Writer

/-- Writes what is between the braces of a method: the member initializers, then the body or what
stands for it. -/
def bodyLines (w : Writer) (m : Method) (body? : Option Text) (level : Int) : Writer :=
  let w := w.lineAll
    (m.initializers.map fun i => i.name ++ " = " ++ convertValue i.value ++ ";") level
  match body? with
  | some body => if body.isBlank then w else w.block (convertBody body) level
  | none =>
    if m.isConstructor then
      if m.initializers.isEmpty then w.line constructorPlaceholder level else w
    else w.lineAll methodPlaceholder level

/-- Writes the body of a method in braces; `body?` takes the place of the method's own. -/
def body (w : Writer) (m : Method) (body? : Option Text) (level : Int) : Writer :=
  ((w.line "\x7b" level).bodyLines m (body?.or m.bodyText) (level + 1)).line "\x7d" level

/-- Whether a method with the given signature is written on one line: its body is an inline one
without a line break, and nothing else has to be written. -/
def isOneLiner (m : Method) (lines : List Text) : Bool :=
  lines.length == 1 && m.body.isNone && m.hasInlineBody && !m.inlineBody.contains '\n'
    && m.initializers.isEmpty

/-- Writes signature and body of a method. -/
def definition (w : Writer) (types : TypeMap) (m : Method) (owner : Text) (level : Int) : Writer :=
  let lines := signatureLines types (methodHead types m owner) m.parameters
  if isOneLiner m lines then
    let inline := convertBody m.inlineBody.trim
    let braces : Text := if inline.isEmpty then "\x7b \x7d" else "\x7b " ++ inline ++ " \x7d"
    w.line (lines.headD [] ++ " " ++ braces) level
  else (w.signature lines level []).body m none level

/-- Writes a method of the type `owner` with its comments and regions. -/
def method (w : Writer) (types : TypeMap) (m : Method) (owner : Text) (level : Int) : Writer :=
  let w := (w.regionStart m.sourceRegionStart level).regionStart m.headerRegionStart level
  let w := (w.lineAll m.headerComments level).lineAll m.sourceComments level
  let w := w.definition types m owner level
  (w.regionEnd m.headerRegionEnd level).regionEnd m.sourceRegionEnd level

end Writer

end Sharpen
