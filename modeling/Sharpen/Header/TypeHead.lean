import Sharpen.Code.Page
import Sharpen.Text.Reader

/-!
# Heads of types

The text from `class` or `struct` to the opening brace says what a type is called, whether it is
exported and what it derives from.

Attributes are looked for between the keyword and the brace, and taken out before anything else. The
name is the last word in front of the colon that is not `final`. Base types stand behind that colon
and are separated by commas; words for visibility are dropped from them, and the rest is kept as it
is.

## Main definitions

* `declspec` recognises the export attribute; `eraseDeclspecs` puts something in its place.
* `cutAtColon?` cuts at the colon that introduces base types or member initializers.
* `typeHead?` reads the head at a position of a page.
* `TypeHead` is what the head of a type says.
* `baseNames` is the names in a list of base types.
-/

namespace Sharpen

/-! ### Attributes and colons -/

/-- Reads `__declspec( … )` and gives the word inside. -/
def declspec : Reader Text := do
  Reader.text "__declspec"
  Reader.blanks
  Reader.char '('
  Reader.blanks
  let w ← Reader.many1 isWord
  Reader.blanks
  Reader.char ')'
  pure w

/-- The text with `new` in place of every attribute. -/
def eraseDeclspecs (new t : Text) : Text :=
  declspec.replaceIn (fun _ => new) t

/-- Cuts a text at its first colon that has no colon beside it; `afterColon` says whether one
precedes the text. -/
def cutAtColonFrom : (afterColon : Bool) → Text → Option (Text × Text)
  | _, [] => none
  | afterColon, c :: r =>
    if c == ':' && !afterColon && r.head? != some ':' then some ([], r)
    else (cutAtColonFrom (c == ':') r).map fun p => (c :: p.1, p.2)

/-- Cuts a text at its first colon that is no part of a scope mark. -/
def cutAtColon? (t : Text) : Option (Text × Text) :=
  cutAtColonFrom false t

/-! ### Type heads -/

/-- What the head of a type says. -/
structure TypeHead where
  isStruct : Bool
  name : Text
  isTypedef : Bool
  isExported : Bool
  bases : List Text
  /-- The position of the opening brace. -/
  brace : Nat
deriving DecidableEq, Repr

/-- Reads the word that introduces a type, behind characters of the class `lead`; gives whether it
is a `typedef` and whether it is a struct. -/
def typeKeyword (lead : Char → Bool) : Reader (Bool × Bool) := do
  let _ ← Reader.many lead
  let isTypedef ← Reader.present (do Reader.text "typedef"; Reader.blanks1)
  let kind ← Reader.oneOf ["class", "struct"]
  Reader.wordEnd
  pure (isTypedef, kind == "struct")

/-- The words that may stand before the name of a base type. -/
def baseQualifiers : List Text :=
  ["public", "private", "protected", "virtual"]

/-- The names in a list of base types. -/
def baseNames (t : Text) : List Text :=
  ((Text.splitOn ',' t).map fun base =>
      Text.join " " ((Text.words base).filter fun w => !baseQualifiers.contains w)).filter
    fun base => !base.isEmpty

/-- Reads the head of a type at position `i` of a page: a keyword, and an opening brace before the
next semicolon. A parenthesis means a function that returns a struct. -/
def typeHead? (page : Page) (i : Nat) : Option TypeHead := do
  let (isTypedef, isStruct) ← (typeKeyword isSpaceOrTab).readAt page.masked i
  let brace ← Text.findChar? page.masked '{' i
  let head := page.masked.slice i brace
  if head.contains ';' || (eraseDeclspecs [] head).contains '(' then none
  else
    let attributes := declspec.findAll head
    let bare := eraseDeclspecs [' '] head
    let bare := ((do let _ ← typeKeyword isBlank; Reader.many fun _ => true : Reader Text).read
      bare).map (' ' :: ·) |>.getD bare
    let (named, bases) := (cutAtColon? bare).getD (bare, [])
    let names := (Text.wordRuns named).filter fun w : Text => w != "final"
    some
      { isStruct := isStruct
        name := names.getLastD []
        isTypedef := isTypedef
        isExported := attributes.contains "dllexport"
        bases := baseNames bases
        brace := brace }

end Sharpen
