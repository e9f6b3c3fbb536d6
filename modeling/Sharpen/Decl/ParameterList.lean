import Sharpen.Decl.ParameterBlock
import Sharpen.Decl.TypeKey
import Sharpen.Text.Word

/-!
# Parameter lists

Reading the parameters of a method: each block is taken apart into type, name and default value.

A declaration has a type, perhaps a name and perhaps array bounds. The name is the last token that
can be one; a declaration of a single word has a type and no name. The key of a parameter and its
flags are read off the type, and the base type is the type without what the flags say.

## Main definitions

* `defaultSeparator?` finds the `=` before a default value.
* `splitTypeAndName` divides a declaration.
* `parseParameters` reads a whole list; a lone `void` stands for no parameters.
* `builtinTypeWords` is the words that name a type all by themselves and so are never parameter
  names.
* `TypeAndName` is a declaration taken apart.
* `nameIndex?` is the index of the last token that is neither an array bound nor a modifier.
-/

namespace Sharpen

/-- The position of the `=` outside brackets and literals in a text that is reached at the given
depth, inside the given literal. -/
def defaultSeparatorFrom : Int → Option Char → Text → Option Nat
  | _, _, [] => none
  | depth, some q, c :: r =>
    (defaultSeparatorFrom depth (if c == q then none else some q) r).map (· + 1)
  | depth, none, c :: r =>
    if isQuote c then (defaultSeparatorFrom depth (some c) r).map (· + 1)
    else if c == '(' || c == '<' || c == '[' then
      (defaultSeparatorFrom (depth + 1) none r).map (· + 1)
    else if c == ')' || c == '>' || c == ']' then
      (defaultSeparatorFrom (depth - 1) none r).map (· + 1)
    else if c == '=' && depth == 0 then some 0
    else (defaultSeparatorFrom depth none r).map (· + 1)

/-- The position of the `=` that introduces a default value. -/
def defaultSeparator? (t : Text) : Option Nat :=
  defaultSeparatorFrom 0 none t

/-- The words that name a type all by themselves and so are never parameter names. -/
def builtinTypeWords : List Text :=
  ["bool", "char", "double", "float", "int", "long", "short", "signed", "unsigned", "void",
   "wchar_t"]

/-- A declaration taken apart. -/
structure TypeAndName where
  type : Text
  name : Text
  isArray : Bool
deriving DecidableEq, Repr

/-- The index of the last token that is neither an array bound nor a modifier. -/
def nameIndex? (tokens : List Text) : Option Nat :=
  let back := tokens.reverse.findIdx? fun k => !(isArrayBound k || isModifier k)
  back.map fun i => tokens.length - 1 - i

/-- Divides a declaration into type and name. The name is the last token that can be one; it is
missing when that token is the only one, a built-in type word or a template. -/
def splitTypeAndName (t : Text) : TypeAndName :=
  let t := t.trim
  let tokens := typeTokens t
  match tokens.getLast? with
  | none => ⟨t, [], false⟩
  | some last =>
    if isModifier last then ⟨t, [], false⟩
    else
      let isArray := tokens.any isArrayBound
      let unnamed : TypeAndName :=
        ⟨joinTokens (tokens.filter fun k => !isArrayBound k), [], isArray⟩
      match nameIndex? tokens with
      | none | some 0 => unnamed
      | some (i + 1) =>
        let name := tokens.getD (i + 1) []
        if builtinTypeWords.contains name || name.contains '<' then unnamed
        else ⟨joinTokens ((tokens.eraseIdx (i + 1)).filter fun k => !isArrayBound k), name, isArray⟩

/-- Divides a block without comments into its declaration and its default value. -/
def splitDefault (t : Text) : Text × Option Text :=
  let t := t.dropEndWhile fun c => c == ',' || isSpaceOrTab c || c == '\n' || c == '\r'
  match defaultSeparator? t with
  | some i => (Text.trim (t.take i), some (Text.trim (t.drop (i + 1))))
  | none => (t, none)

/-- The type a parameter is of once `const`, `*` and `&` are taken off. -/
def baseType (type : Text) (isArray : Bool) : Text :=
  let bare := (Text.replaceWord "const" [] type).filter fun c => c != '&' && c != '*'
  Text.trim (Text.squeeze bare) ++ (if isArray then "[]" else "")

/-- The parameter a block stands for. -/
def ParameterBlock.parameter (b : ParameterBlock) : Parameter :=
  let (code, before, after) := separateComments b.text
  let (declaration, default?) := splitDefault code
  let d := splitTypeAndName declaration
  { baseType := baseType d.type d.isArray
    name := d.name
    isConst := (typeTokens d.type).contains "const"
    isPointer := d.type.contains '*'
    isReference := d.type.contains '&' && !Text.hasInfix d.type "&&"
    default? := default?
    comments := before ++ after
    key := typeKey d.type
    onNewLine := b.onNewLine
    indent := b.indent
    spelling := if d.name.isEmpty then d.type else d.type ++ " " ++ d.name }

/-- Whether a list of one parameter says that there are none. -/
def isVoidList : List Parameter → Bool
  | [p] => p.name.isEmpty && p.baseType == "void" && !p.isPointer
  | _ => false

/-- The parameters of a parameter list. -/
def parseParameters (t : Text) : List Parameter :=
  let parameters := (parameterBlocks t).map ParameterBlock.parameter
  if isVoidList parameters then [] else parameters

end Sharpen
