import Sharpen.Code.Bracket
import Sharpen.Decl.Basic
import Sharpen.Text.Blank
import Sharpen.Text.Word

/-!
# Member initializers

A constructor may give its members values ahead of its body, as in `a(1), b{2}`.

The list is split at its commas outside of brackets and literals. An entry that is no name with a
value in brackets, such as a base class with template arguments, is left out. Blanks in values
become single spaces.

## Main definitions

* `parseInitializers` reads such a list; entries of another form are passed over.
* `initializer?` reads one initializer: a name, then a value in parentheses or braces.
-/

namespace Sharpen

/-- The characters of a name that may be qualified. -/
def isQualifiedChar (c : Char) : Bool :=
  isWord c || c == ':'

/-- Reads one initializer: a name, then a value in parentheses or braces. -/
def initializer? (part : Text) : Option Initializer :=
  let t := part.trim
  let name := t.takeWhile isQualifiedChar
  match Text.trimStart (t.drop name.length) with
  | [] => none
  | opn :: r =>
    if !name.isEmpty && (opn == '(' || opn == '{')
        && (r.getLast? == some ')' || r.getLast? == some '}') then
      some ⟨name, Text.normalizeBlanks r.dropLast⟩
    else none

/-- Reads a list of member initializers. -/
def parseInitializers (t : Text) : List Initializer :=
  (splitTopLevel ',' false t).filterMap initializer?

end Sharpen
