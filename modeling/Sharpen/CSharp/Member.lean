import Sharpen.CSharp.Expression
import Sharpen.CSharp.Writer
import Sharpen.Decl.Constant

/-!
# Members and constants in C#

A member is declared on one line, with its comments above and behind it and the markers of its
region around it. A declaration that has line breaks is cut into lines. The type is mapped, an
initial value is converted, and an array is declared by its element type.

## Main definitions

* `memberDeclaration` is the declaration of a member without comments; `Writer.member` writes a
  member with its comments and regions.
* `Writer.constants` writes constants.
* `Writer.withComment` is a text and a comment behind it.
-/

namespace Sharpen

/-- A word that is there on a condition. -/
def wordIf (condition : Bool) (w : Text) : List Text :=
  if condition then [w] else []

/-- The C# declaration of a member: a constant with a value is `const`, other constants are
`readonly`, and an array without a value is made with its size. -/
def memberDeclaration (types : TypeMap) (m : Member) : Text :=
  let initializer := m.initializer.map convertValue
  let isArray := m.isArray || initializer.any fun v => v.head? == some '{'
  let type := types.mapType m.type
  let isLiteral := m.isConst && initializer.isSome && !isArray
  let modifiers := [m.visibility.keyword] ++ wordIf isLiteral "const"
    ++ wordIf (m.isStatic && !isLiteral) "static" ++ wordIf (m.isConst && !isLiteral) "readonly"
  let value :=
    if isArray && initializer.isNone && !m.arraySize.isEmpty then
      some ("new " ++ type ++ "[" ++ m.arraySize ++ "]")
    else initializer
  Text.join " " modifiers ++ " " ++ type ++ (if isArray then "[]" else "") ++ " " ++ m.name
    ++ (match value with
        | some v => " = " ++ v
        | none => []) ++ ";"

namespace Writer

/-- Writes the marker that opens a region, if there is one. -/
def regionStart (w : Writer) (marker : Text) (level : Int) : Writer :=
  if marker.isEmpty then w else (w.blank.line marker level).line [] level

/-- Writes the marker that ends a region, if there is one. -/
def regionEnd (w : Writer) (marker : Text) (level : Int) : Writer :=
  if marker.isEmpty then w else w.blank.line marker level

/-- A text and a comment behind it. -/
def withComment (t comment : Text) : Text :=
  if comment.isEmpty then t else t ++ " " ++ comment

/-- Writes a member. A value over several lines keeps its layout, and the comment follows it. -/
def member (w : Writer) (types : TypeMap) (m : Member) (level : Int) : Writer :=
  let w := (w.regionStart m.regionStart level).lineAll m.comments level
  let declaration := memberDeclaration types m
  let (comment, moreComment) := Text.cutLine m.trailingComment
  let (first, rest) := Text.cutLine declaration
  let w :=
    if rest.isEmpty then w.line (withComment declaration comment) level
    else (w.line first level).block (withComment rest comment) level
  let w := if moreComment.isEmpty then w else w.block moreComment (level + 1)
  w.regionEnd m.regionEnd level

/-- Writes constants, with the given access or their own. A constant with a comment has a blank
line above it. -/
def constants (w : Writer) (cs : List Constant) (level : Int) (access? : Option Text) : Writer :=
  cs.zipIdx.foldl (fun w (c, i) =>
    let w := if !c.comments.isEmpty && 0 < i then w.blank else w
    (w.lineAll c.comments level).line (c.declaration access?) level) w

end Writer

end Sharpen
