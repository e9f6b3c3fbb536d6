import Sharpen.Code.Line
import Sharpen.Decl.Basic
import Sharpen.Decl.Initializer
import Sharpen.Decl.TypeKey

/-!
# Member declarations

A data member is written `qualifiers type name[size] = value;`. Nothing marks where the type ends
and the name begins, so each part is taken as long as possible first, and shorter as long as the
rest cannot be read.

The parts are the qualifiers, the type, the name, the bound of an array and the value. They are
tried with all ways to divide the declaration, in a fixed order, and the first way that reads all of
it is taken. White space has been squeezed before, so that single blanks are all that stand between
words.

## Main definitions

* `memberParts?` takes a declaration apart and `memberDecl?` makes a member of it.
* `MemberParts` is a member declaration taken apart.
* `afterWords` is what may be left behind a row of the given words, each with a blank after it: the
  longest row first.
* `memberQualifiers` is the words in front of a member that are no part of its type.
* `sizeWords` is the words that extend a built-in type.
* `afterTypeName` is what may be left behind the name of a type: the longest name first.
* The functions `after…` give what may be left behind a part, in the order it is tried.
-/

namespace Sharpen

/-- A member declaration taken apart. -/
structure MemberParts where
  qualifiers : List Text
  type : Text
  name : Text
  size : Option Text
  value : Option Text
deriving DecidableEq, Repr

/-- The text without one blank in front. -/
def dropBlank (t : Text) : Text :=
  if t.head?.any isBlank then t.drop 1 else t

/-- The text behind one of the given words and a blank. -/
def afterOneOf? (ws : List Text) (t : Text) : Option Text :=
  ws.findSome? fun w =>
    if w.isPrefixOf t && (t.drop w.length).head?.any isBlank then some (t.drop (w.length + 1))
    else none

/-- What may be left behind a row of the given words, each with a blank after it: the longest row
first. -/
def afterWords (ws : List Text) (t : Text) : List Text :=
  match afterOneOf? ws t with
  | none => [t]
  | some r => if r.length < t.length then afterWords ws r ++ [t] else [t]
termination_by t.length

/-- The words in front of a member that are no part of its type. -/
def memberQualifiers : List Text :=
  ["static", "const", "mutable", "volatile"]

/-- The words that extend a built-in type. -/
def sizeWords : List Text :=
  ["unsigned", "signed", "long", "short"]

/-- What may be left behind the name of a type: the longest name first. -/
def afterTypeName (t : Text) : List Text :=
  let run := t.takeWhile isQualifiedChar
  (List.range run.length).map fun i => t.drop (run.length - i)

/-- What may be left behind a list of template arguments: up to the last closing bracket first, and
all of the text last. -/
def afterTemplate (t : Text) : List Text :=
  match dropBlank t with
  | '<' :: r =>
    let ends := (List.range r.length).filter fun i => r[i]? == some '>'
    ends.reverse.map (fun i => r.drop (i + 1)) ++ [t]
  | _ => [t]

/-- What may be left behind a `const` after the type. -/
def afterConst (t : Text) : List Text :=
  if Text.startsWith t " const" && !(t.drop 6).head?.any isWord then [t.drop 6, t] else [t]

/-- What may be left behind the markers of a type. -/
def afterMarkers (t : Text) : List Text :=
  let r := dropBlank t
  let run := r.takeWhile fun c => c == '*' || c == '&'
  if run.isEmpty then [t] else [r.drop run.length, t]

/-- The array bound in brackets at the start of a text and what is left behind it. -/
def arrayBound (t : Text) : Option Text × Text :=
  match t with
  | '[' :: r =>
    match Text.cutAt ']' r with
    | some (size, r') => (some size.trim, r')
    | none => (none, t)
  | _ => (none, t)

/-- The value at the end of a member declaration, if the text is the end of one. -/
def memberValue? (t : Text) : Option (Option Text) :=
  match t with
  | '=' :: r =>
    if r.getLast? == some ';' && !r.dropLast.isEmpty then some (some (Text.trim r.dropLast))
    else none
  | _ => if t == ";" then some none else none

/-- Reads a member declaration from its name on: name, bound and value. -/
def memberTail? (t : Text) : Option (Text × Option Text × Option Text) :=
  let t := dropBlank t
  let name := t.takeWhile isWord
  let (size, r) := arrayBound (dropBlank (t.drop name.length))
  if name.isEmpty then none
  else (memberValue? (dropBlank r)).map fun value => (name, size, value)

/-- Takes a member declaration apart in the first way that reads all of it. -/
def memberParts? (code : Text) : Option MemberParts :=
  (afterWords memberQualifiers code).findSome? fun start =>
    (afterWords sizeWords start).findSome? fun r₁ =>
      (afterTypeName r₁).findSome? fun r₂ =>
        (afterTemplate r₂).findSome? fun r₃ =>
          (afterConst r₃).findSome? fun r₄ =>
            (afterMarkers r₄).findSome? fun r₅ =>
              (memberTail? r₅).map fun (name, size, value) =>
                { qualifiers := Text.words (code.take (code.length - start.length))
                  type := start.take (start.length - r₅.length)
                  name := name
                  size := size
                  value := value }

/-- The code of a member declaration on one line, without a comment behind it. -/
def memberCode (t : Text) : Text :=
  Text.trim (Text.squeeze (splitTrailingComment t).1)

/-- Makes a member of the code of its declaration. -/
def memberDecl? (visibility : Visibility) (code : Text) : Option Member :=
  (memberParts? code).map fun parts =>
    { type := normalizeType (Text.replaceWord "const" [' '] parts.type)
      name := parts.name
      visibility := visibility
      isStatic := parts.qualifiers.contains "static"
      isConst := parts.qualifiers.contains "const" || (Text.wordRuns parts.type).contains "const"
      isArray := parts.size.isSome
      arraySize := parts.size.getD []
      initializer := parts.value }

end Sharpen
