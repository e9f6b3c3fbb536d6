import Sharpen.Code.Bracket
import Sharpen.Code.Line
import Sharpen.Decl.Initializer
import Sharpen.Decl.ParameterList
import Sharpen.Header.Basic
import Sharpen.Header.TypeHead

/-!
# Method declarations

A statement of a type's body that has a parenthesis is a method declaration, perhaps with an inline
body.

The parameters end at the parenthesis that closes the first one. What precedes it is divided into
keywords, return type and name, and what follows it says whether the method is constant or pure and
whether a body belongs to it. Initializers stand between a colon and the first brace behind it.
Operators are reported and passed over, and deleted methods give nothing.

## Main definitions

* `methodName?` finds the name that a declaration ends with.
* `methodDecl` reads a declaration; it gives a method, a reason why there is none, or neither.
* `methodKeywords` is the words in front of a method that are no part of its return type.
* `startsConst` says whether a text starts with the word `const`.
* `MethodReading` is what comes of reading a declaration.
* `MethodTail` is what stands behind the parameter list of a declaration.
-/

namespace Sharpen

/-- The words in front of a method that are no part of its return type. -/
def methodKeywords : List Text :=
  ["virtual", "static", "inline", "explicit", "friend", "__inline", "__forceinline", "afx_msg"]

/-- The word that a text ends with. -/
def lastWord (t : Text) : Text :=
  (t.reverse.takeWhile isWord).reverse

/-- The method name that a declaration ends with and the text before it. -/
def methodName? (declaration : Text) : Option (Text × Text) :=
  let run := lastWord declaration
  let name := run.dropWhile fun c => !isIdentStart c
  let before := declaration.take (declaration.length - name.length)
  if name.isEmpty then none
  else if before.getLast? == some '~' then some ('~' :: name, before.dropLast)
  else some (name, before)

/-- The text without the scope `Owner::` that it ends with. -/
def dropScope (t : Text) : Text :=
  if t.endsWith "::" then
    let r := Text.trimEnd (t.take (t.length - 2))
    let w := lastWord r
    if w.isEmpty then t else Text.trim (r.take (r.length - w.length))
  else t

/-- Whether a text ends with an equals sign and the given word, as in `= 0`. -/
def endsWithValue (w t : Text) : Bool :=
  let t := t.trim
  t.endsWith w && Text.endsWith (Text.trimEnd (t.take (t.length - w.length))) "="

/-- Whether a text starts with the word `const`. -/
def startsConst (t : Text) : Bool :=
  ((do Reader.blanks; Reader.word "const" : Reader Unit).read t).isSome

/-- What comes of reading a declaration. -/
inductive MethodReading where
  /-- A method. -/
  | method (m : Method)
  /-- No method, for a reason worth reporting. -/
  | refused (notice : HeaderNotice)
  /-- No method. -/
  | nothing
deriving DecidableEq, Repr

/-- What stands behind the parameter list of a declaration. -/
structure MethodTail where
  /-- The text up to the initializers or the body. -/
  head : Text
  initializers : List Initializer
  /-- The position of the body's brace. -/
  brace : Option Nat
deriving DecidableEq, Repr

/-- Reads what stands behind a parameter list, from its masked copy and its text. -/
def methodTail (masked text : Text) : MethodTail :=
  match masked.findIdx? (· == '{') with
  | none => ⟨masked.trimEnd.dropEndWhile (· == ';'), [], none⟩
  | some brace =>
    let head := masked.take brace
    match cutAtColon? head with
    | none => ⟨head, [], some brace⟩
    | some (before, _) =>
      ⟨before, parseInitializers (Text.slice text (before.length + 1) brace), some brace⟩

/-- Where the parameter list of a declaration starts, in its masked copy. -/
def parametersStart (masked : Text) : Nat :=
  (masked.findIdx? (· == '(')).getD masked.length

/-- Reads a method declaration of the type `owner` from its masked copy and its text. The
declaration starts at `position` of the header `stem`. -/
def methodDecl (stem owner : Text) (visibility : Visibility) (position : Nat) (masked text : Text) :
    MethodReading :=
  let opening := parametersStart masked
  match matchingAt? '(' ')' masked opening with
  | none => .refused (.unbalancedDropped text.trim)
  | some closing =>
    let head := eraseDeclspecs [' '] (masked.take opening)
    let words := Text.words head
    let tokens := words.filter fun w => !methodKeywords.contains w
    if Text.hasInfix head "operator" then .refused (.operatorSkipped text.trim)
    else if tokens.isEmpty then .nothing
    else
      match methodName? (Text.join " " tokens) with
      | none => .refused (.namelessDropped text.trim)
      | some (name, before) =>
        let returnType := normalizeType (dropScope before.trim)
        let isDestructor := name.startsWith "~"
        if returnType.isEmpty && !isDestructor && name != owner then
          .refused (.macroLikeSkipped text.trim)
        else
          let tailMasked := masked.drop (closing + 1)
          let tailText := text.drop (closing + 1)
          let tail := methodTail tailMasked tailText
          let headToBrace := (tail.brace.map fun b => tailMasked.take b).getD tail.head
          if endsWithValue "delete" headToBrace then .nothing
          else
            let method : Method :=
              { name := name
                returnType := returnType
                parameters := parseParameters (text.slice (opening + 1) closing)
                visibility := visibility
                isStatic := words.contains "static"
                isVirtual := words.contains "virtual"
                isConst := startsConst tail.head
                isPure := endsWithValue "0" tail.head
                isDestructor := isDestructor
                isConstructor := returnType.isEmpty && !isDestructor
                initializers := tail.initializers
                owner := owner
                originFile := stem
                position := position }
            match tail.brace with
            | some brace =>
              let close := (matchingAt? '{' '}' tailMasked brace).getD tailText.length
              let (body, indent) := normalizeBlock (Text.slice tailText (brace + 1) close)
              .method { method with
                hasInlineBody := true, inlineBody := body, bodyIndent := indent
                targetFile := stem }
            | none =>
              if endsWithValue "default" tail.head then
                .method { method with hasInlineBody := true, targetFile := stem }
              else .method method

end Sharpen
