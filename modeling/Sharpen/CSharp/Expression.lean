import Sharpen.Code.Mask
import Sharpen.Text.Reader

/-!
# Types and expressions in C#

Type names are looked up in a table; code is taken over as it is, apart from text macros and from
the words for null and truth, which are spelled the C# way outside literals.

The table of types has the names from the settings, and behind them those that both languages share.
A pointer or reference keeps no mark of what it is, and template arguments are mapped one by one.
Code is cut at its literals first, so that no word in a literal is spelled anew; only text macros
are looked for before that.

## Main definitions

* `TypeMap.mapType` writes a type.
* `literalSegments` cuts code into literals and what stands between them.
* `convertBody` writes code, `convertValue` a value.
* `TypeMap` is the C# names of types, where they differ from the built-in ones.
* `sharedTypes` is the type names that C# shares.
* `behindLiteral?` is what is left behind a literal on one line that starts with `c` and goes on
  with `t`.
-/

namespace Sharpen

/-! ### Types -/

/-- The C# names of types, where they differ from the built-in ones. -/
abbrev TypeMap := List (Text × Text)

/-- The type names that C# shares. -/
def sharedTypes : List Text :=
  ["bool", "char", "double", "float", "int", "long", "short", "void"]

namespace TypeMap

/-- The C# name of a type. -/
def find? (m : TypeMap) (name : Text) : Option Text :=
  (List.lookup name m).or (if sharedTypes.contains name then some name else none)

/-- Reads a name that the table may know. -/
def typeName : Reader Text := do
  let first ← Reader.satisfy isIdentStart
  let others ← Reader.many fun c => isWord c || c == ':'
  pure (first :: others)

/-- The C# spelling of a type: a leading `const` and trailing markers are dropped, and names are
looked up, the whole type first. No type is `void`. -/
def mapType (m : TypeMap) (t : Text) : Text :=
  let t := t.trim
  if t.isEmpty then "void"
  else
    let t := if t.startsWith "const " then Text.trim (t.drop 6) else t
    let t := Text.trim (t.dropEndWhile fun c => c == '*' || c == '&')
    match m.find? t with
    | some name => name
    | none => typeName.replaceIn (fun name => (m.find? name).getD name) t

end TypeMap

/-! ### Literals -/

/-- What is left behind the literal whose insides the text starts with. A backslash takes the next
character with it, which may not be a newline; unescaped newlines end a literal only if
`oneLine`. -/
def literalRest? (oneLine : Bool) (q : Char) : Text → Option Text
  | [] => none
  | [c] => if c == q then some [] else none
  | c :: d :: r =>
    if c == q then some (d :: r)
    else if c == '\\' then if d == '\n' then none else literalRest? oneLine q r
    else if oneLine && c == '\n' then none
    else literalRest? oneLine q (d :: r)

/-- What is left behind a literal is shorter than the literal with what is left. -/
theorem length_le_of_literalRest? {oneLine : Bool} {q : Char} {t r : Text}
    (h : literalRest? oneLine q t = some r) : r.length ≤ t.length := by
  fun_induction literalRest? oneLine q t with
  | case1 => simp at h
  | case2 c hc => simp_all
  | case3 c hc => simp at h
  | case4 c d t hc =>
    obtain rfl := Option.some.inj h
    simp
  | case5 c d t hc hb hd => simp at h
  | case6 c d t hc hb hd ih => have := ih h; simp only [List.length_cons]; omega
  | case7 c d t hc hb ho => simp at h
  | case8 c d t hc hb ho ih => have := ih h; simp only [List.length_cons] at this ⊢; omega

/-- What is left behind a literal on one line that starts with `c` and goes on with `t`. -/
def behindLiteral? (c : Char) (t : Text) : Option Text :=
  if isQuote c then literalRest? true c t else none

/-- What is left behind a literal is no longer than what follows its quote. -/
theorem length_le_of_behindLiteral? {c : Char} {t r : Text} (h : behindLiteral? c t = some r) :
    r.length ≤ t.length := by
  unfold behindLiteral? at h
  split at h
  · exact length_le_of_literalRest? h
  · simp at h

/-- Code cut at its literals: what stands before the first one, and every literal with what stands
behind it. A quote that starts no literal is code. -/
def literalSegments : Text → Text × List (Text × Text)
  | [] => ([], [])
  | c :: r =>
    match h : behindLiteral? c r with
    | some rest =>
      have := length_le_of_behindLiteral? h
      let (code, more) := literalSegments rest
      ([], ((c :: r).take (r.length + 1 - rest.length), code) :: more)
    | none =>
      let (code, more) := literalSegments r
      (c :: code, more)
termination_by t => t.length

/-! ### Code -/

/-- Reads a text macro and gives the literal inside. -/
def textMacro : Reader Text := do
  Reader.wordStart
  Reader.char '_'
  let _ ← Reader.option (Reader.char 'T')
  Reader.char '('
  Reader.blanks
  let q ← Reader.satisfy isQuote
  let inside ← fun c =>
    (literalRest? false q c.rest).map fun rest =>
      let n := c.rest.length - rest.length
      (c.rest.take n, c.skip n)
  Reader.blanks
  Reader.char ')'
  pure (q :: inside)

/-- The C# word for a word of C++. -/
def convertWord (w : Text) : Text :=
  if w == "NULL" || w == "nullptr" then "null"
  else if w == "TRUE" then "true"
  else if w == "FALSE" then "false"
  else w

/-- Code in C#: text macros are taken off, and words outside literals are replaced. -/
def convertBody (t : Text) : Text :=
  let (code, more) := literalSegments (textMacro.replaceIn id t)
  Text.mapWords convertWord code ++
    more.flatMap fun (literal, code) => literal ++ Text.mapWords convertWord code

/-- A value in C#. -/
def convertValue (t : Text) : Text :=
  convertBody t.trim

end Sharpen
