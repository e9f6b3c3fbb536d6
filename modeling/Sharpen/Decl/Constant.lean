import Sharpen.Code.Line
import Sharpen.Decl.Basic
import Sharpen.Text.Digit
import Sharpen.Text.Word

/-!
# Constants

A directive `#define NAME VALUE` becomes a C# constant whose type is read off the form of its value.

The form of the value is looked at in a fixed order: characters and strings, with and without text
macros, then words for truth values, then numbers, from the narrow types to the wide ones.
Everything else counts as an integer. A comment at the end of the directive is taken off the value
and kept with the constant.

## Main definitions

* `splitDefine?` takes a directive apart; macros with parameters and names without a value are not
  constants.
* `constantType` infers the C# type and `constantLiteral` writes the value in C#.
* `Constant.ofLine?` reads a directive; `Constant.declaration` writes the C# declaration.
* `DefineParts` is a directive taken apart.
* `defineHead?` is the name that a `#define` directive gives a value to, and the text after the
  name.
* `isLiteral` says whether a text is one literal between quotes `q`.
-/

namespace Sharpen

/-! ### The directive -/

/-- A directive taken apart. -/
structure DefineParts where
  name : Text
  value : Text
  comment : Text
deriving DecidableEq, Repr

/-- The text after the word `w` at the start of `t`. -/
def afterText? (w t : Text) : Option Text :=
  if w.isPrefixOf t then some (t.drop w.length) else none

/-- The name that a `#define` directive gives a value to, and the text after the name. -/
def defineHead? (line : Text) : Option (Text × Text) := do
  let r ← afterText? "#" line.trimStart
  let r ← afterText? "define" (Text.trimStart r)
  let name := (Text.trimStart r).takeWhile isWord
  if r.head?.any isBlank && !name.isEmpty then
    some (name, (Text.trimStart r).drop name.length)
  else none

/-- Name, value and trailing comment of a directive that names a value. -/
def splitDefine? (line : Text) : Option DefineParts := do
  let (name, r) ← defineHead? line
  let rest := r.takeWhile (· != '\n')
  if r.head? == some '(' || 1 < (r.drop rest.length).length then none
  else
    let (value, comment) := splitTrailingComment rest
    if value.isBlank then none else some ⟨name, value.trim, comment⟩

/-! ### The form of a value -/

/-- Whether every `q` in a text follows a backslash; `afterBackslash` says whether one precedes the
text. -/
def escapesAll (q : Char) : (afterBackslash : Bool) → Text → Bool
  | _, [] => true
  | afterBackslash, c :: r => (c != q || afterBackslash) && escapesAll q (c == '\\') r

/-- Whether a text is one literal between quotes `q`. -/
def isLiteral (q : Char) (t : Text) : Bool :=
  match t with
  | [] => false
  | c :: r => c == q && r.getLast? == some q && escapesAll q false r.dropLast

/-- The literal inside a text macro `name( … )`. -/
def macroLiteral? (name : Text) (q : Char) (t : Text) : Option Text := do
  let r ← afterText? (name ++ "(") t
  let inner := Text.trim r.dropLast
  if r.getLast? == some ')' && isLiteral q inner then some inner else none

/-- The character literal inside `_T( … )`. -/
def charMacro? (t : Text) : Option Text :=
  macroLiteral? "_T" '\'' t

/-- The string literal inside `_T( … )` or `_( … )`. -/
def stringMacro? (t : Text) : Option Text :=
  (macroLiteral? "_T" '"' t).or (macroLiteral? "_" '"' t)

/-- The text without a sign in front. -/
def dropSign : Text → Text
  | [] => []
  | c :: r => if c == '-' || c == '+' then r else c :: r

/-- Whether a text is a row of decimal digits. -/
def isDecimalRow (t : Text) : Bool :=
  !t.isEmpty && t.all isDecimal

/-- Whether a text is a whole number, in hexadecimal or decimal. -/
def isWholeNumber (t : Text) : Bool :=
  isDecimalRow t ||
    ((t.startsWith "0x" || t.startsWith "0X") && !(t.drop 2).isEmpty && (t.drop 2).all isHex)

/-- Whether a text is a whole number, with or without the mark of an unsigned one. -/
def isWholeNumberU (t : Text) : Bool :=
  isWholeNumber t || ((t.endsWith "u" || t.endsWith "U") && isWholeNumber t.dropLast)

/-- Whether a value is an `int` literal. -/
def isIntLiteral (t : Text) : Bool :=
  isWholeNumberU (dropSign t)

/-- Whether a value is a `long` literal: one or two marks follow the number. -/
def isLongLiteral (t : Text) : Bool :=
  let core := Text.dropEndWhile (fun c => c == 'l' || c == 'L') (dropSign t)
  let marks := (dropSign t).length - core.length
  (marks == 1 || marks == 2) && isWholeNumberU core

/-- Whether a text is empty or the mark of a `double`. -/
def isDoubleMark (t : Text) : Bool :=
  t == [] || t == ['d'] || t == ['D']

/-- Whether a text is what may follow the mantissa of a `double`. -/
def isDoubleTail (t : Text) : Bool :=
  match t with
  | [] => true
  | c :: r =>
    if c == 'e' || c == 'E' then
      let digits := (dropSign r).takeWhile isDecimal
      !digits.isEmpty && isDoubleMark ((dropSign r).drop digits.length)
    else isDoubleMark t

/-- Whether a value is a `double` literal. -/
def isDoubleLiteral (t : Text) : Bool :=
  let t := dropSign t
  let whole := t.takeWhile isDecimal
  match t.drop whole.length with
  | '.' :: r =>
    let fraction := r.takeWhile isDecimal
    !(whole.isEmpty && fraction.isEmpty) && isDoubleTail (r.drop fraction.length)
  | r => !whole.isEmpty && isDoubleTail r

/-- The words that stand for true. -/
def trueWords : List Text :=
  ["TRUE", "YES", "OK", "true"]

/-- The words that stand for false. -/
def falseWords : List Text :=
  ["FALSE", "NO", "NOTOK", "false"]

/-- The C# type of a constant's value. Expressions and other names count as integers. -/
def constantType (value : Text) : Text :=
  let v := value.trim
  if (charMacro? v).isSome || isLiteral '\'' v then "char"
  else if (stringMacro? v).isSome || isLiteral '"' v then "string"
  else if trueWords.contains v || falseWords.contains v then "bool"
  else if isIntLiteral v then "int"
  else if isLongLiteral v then "long"
  else if isDoubleLiteral v then "double"
  else "int"

/-- The value of a constant in C#: text macros are taken off and truth values spelled out. -/
def constantLiteral (value : Text) : Text :=
  let v := value.trim
  match (charMacro? v).or (stringMacro? v) with
  | some literal => literal
  | none =>
    if trueWords.contains v then "true"
    else if falseWords.contains v then "false"
    else v

/-! ### Constants -/

namespace Constant

/-- The constant a directive defines. -/
def ofLine? (line : Text) (originFile : Text) (fromHeader : Bool) (comments : List Text)
    (position : Nat) : Option Constant :=
  (splitDefine? line).map fun d =>
    { name := d.name
      value := d.value
      type := constantType d.value
      literal := constantLiteral d.value
      originFile := originFile
      fromHeader := fromHeader
      comments := comments
      trailingComment := d.comment
      position := position }

/-- Constants of a header are seen by all of the assembly, those of a source only by their type. -/
def access (c : Constant) : Text :=
  if c.fromHeader then "internal" else "private"

/-- The C# declaration of a constant, with the given access or its own. -/
def declaration (c : Constant) (access? : Option Text) : Text :=
  access?.getD c.access ++ " const " ++ c.type ++ " " ++ c.name ++ " = " ++ c.literal ++ ";" ++
    (if c.trailingComment.isEmpty then [] else ' ' :: c.trailingComment)

end Constant

end Sharpen
