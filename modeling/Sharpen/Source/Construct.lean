import Sharpen.Text.Reader

/-!
# Constructs of a source file

Readers for the constructs that stand at file scope, each for the masked text of a file. A match
gives the positions by which the text itself is cut.

Each reader tries one form at one place, and the search for it goes through the masked text, so that
it never starts in a comment or a literal. Alternatives are tried in the order that is given, and a
match ends before the body, whose end is found by its braces. Matches that stand in a body are left
to be sorted out by depth.

## Main definitions

* `implementation` and `scopedName` recognise the two forms in which a method is implemented.
* `freeFunction`, `embeddedType`, `staticInit`, `regionLine`, `defineLine` and `scopeBlock`
  recognise the other constructs; `bodyTail` reads what stands between parameters and body.
* `Reader.behind` tries a reader behind each of the given numbers of characters, in their order, and
  gives the number with the result.
* `methodIdent` reads a name with an optional `~` in front.
* `BodyTail` is what stands between the parameters of a definition and its body.
* `ScopedName` is a scoped name in front of a parameter list.
-/

namespace Sharpen

/-- Tries a reader behind each of the given numbers of characters, in their order, and gives the
number with the result. -/
def Reader.behind {α : Type} (ks : List Nat) (r : Reader α) : Reader (Nat × α) := fun c =>
  ks.findSome? fun k => (r.run (c.skip k)).map fun (a, c') => ((k, a), c')

/-- The text that follows, which stays unread. -/
def Reader.ahead (p : Char → Bool) : Reader Text := fun c =>
  some (c.rest.takeWhile p, c)

/-- Reads a name with an optional `~` in front. -/
def methodIdent : Reader Text := do
  let tilde ← Reader.present (Reader.char '~')
  let name ← Reader.many1 isWord
  pure (if tilde then '~' :: name else name)

/-! ### Bodies -/

/-- What stands between the parameters of a definition and its body. -/
structure BodyTail where
  isConst : Bool
  /-- Where the list of member initializers starts and ends. -/
  initSpan : Option (Nat × Nat)
  /-- The position of the body's opening brace. -/
  brace : Nat
deriving DecidableEq, Repr

/-- Reads from behind a parameter list up to the opening brace of the body. -/
def bodyTail : Reader BodyTail := do
  Reader.blanks
  let isConst ← Reader.present (Reader.word "const")
  Reader.blanks
  let initSpan ← Reader.option do
    Reader.char ':'
    let start ← Reader.here
    let _ ← Reader.many fun c => c != '{' && c != ';'
    let stop ← Reader.here
    pure (start, stop)
  let brace ← Reader.here
  Reader.char '{'
  pure ⟨isConst, initSpan, brace⟩

/-! ### Implementations -/

/-- A scoped name in front of a parameter list. -/
structure ScopedName where
  owner : Text
  ownerStart : Nat
  name : Text
  /-- The position of the opening parenthesis. -/
  paren : Nat
deriving DecidableEq, Repr

/-- Reads `owner::name(`. -/
def scopedName : Reader ScopedName := do
  let ownerStart ← Reader.here
  let owner ← Reader.many1 isWord
  Reader.blanks
  Reader.text "::"
  Reader.blanks
  let name ← methodIdent
  Reader.blanks
  let paren ← Reader.here
  Reader.char '('
  pure ⟨owner, ownerStart, name, paren⟩

/-- An implementation whose head is on one line and whose parameters hold no parentheses. -/
structure Implementation where
  /-- The text before the scoped name. -/
  head : Text
  /-- Where the head starts. -/
  start : Nat
  target : ScopedName
  /-- The position of the closing parenthesis. -/
  parenEnd : Nat
  tail : BodyTail
deriving DecidableEq, Repr

/-- The characters of a return type with the words before it. -/
def isHeadChar (c : Char) : Bool :=
  isWord c || isSpaceOrTab c || c == ':' || c == '<' || c == '>' || c == ',' || c == '*' || c == '&'
    || c == '~'

/-- The characters that may divide a return type from the name behind it. -/
def isHeadEnd (c : Char) : Bool :=
  isSpaceOrTab c || c == '*' || c == '&'

/-- The lengths a head may have in front of a scoped name, in the order they are tried: the
shortest first, and no head at all last. -/
def headLengths (run : Text) : List Nat :=
  ((List.range run.length).filter fun i => run[i]?.any isHeadEnd).map (· + 1) ++ [0]

/-- Reads an implementation that starts its line. -/
def implementation : Reader Implementation := do
  Reader.lineStart
  let _ ← Reader.many isSpaceOrTab
  let start ← Reader.here
  let run ← Reader.ahead isHeadChar
  let (k, target, parenEnd, tail) ← Reader.behind (headLengths run) do
    let target ← scopedName
    let _ ← Reader.many fun c => c != '(' && c != ')'
    let parenEnd ← Reader.here
    Reader.char ')'
    let tail ← bodyTail
    pure (target, parenEnd, tail)
  pure ⟨run.take k, start, target, parenEnd, tail⟩

/-! ### Free functions -/

/-- A name in front of a parameter list, without a scope. -/
structure FreeFunction where
  head : Text
  headStart : Nat
  name : Text
  nameStart : Nat
  /-- The position of the opening parenthesis. -/
  paren : Nat
deriving DecidableEq, Repr

/-- Succeeds where neither a word nor a scope mark nor a `~` precedes. -/
def unscoped : Reader Unit := fun c =>
  if c.before.any fun x => isWord x || x == ':' || x == '~' then none else some ((), c)

/-- Reads a free function that starts its line. -/
def freeFunction : Reader FreeFunction := do
  Reader.lineStart
  let _ ← Reader.many isSpaceOrTab
  let headStart ← Reader.here
  let run ← Reader.ahead fun c => isHeadChar c && c != '~'
  let (k, name, nameStart, paren) ← Reader.behind (List.range (run.length + 1)) do
    unscoped
    let nameStart ← Reader.here
    let first ← Reader.satisfy isIdentStart
    let others ← Reader.many isWord
    Reader.blanks
    let paren ← Reader.here
    Reader.char '('
    pure (first :: others, nameStart, paren)
  pure ⟨run.take k, headStart, name, nameStart, paren⟩

/-! ### Types and static members -/

/-- Reads the head of a type definition and gives where it starts and its opening brace. -/
def embeddedType : Reader (Nat × Nat) := do
  Reader.lineStart
  let start ← Reader.here
  let _ ← Reader.many isSpaceOrTab
  let _ ← Reader.option (do Reader.text "typedef"; Reader.blanks1)
  let _ ← Reader.oneOf ["struct", "class"]
  Reader.wordEnd
  let _ ← Reader.many fun c => c != ';' && c != '{' && c != '(' && c != ')'
  let brace ← Reader.here
  Reader.char '{'
  pure (start, brace)

/-- The initialization of a static member as it stands in a masked text. -/
structure StaticInitMatch where
  isConst : Bool
  /-- The type and where it starts. -/
  type : Option (Text × Nat)
  owner : Text
  ownerStart : Nat
  name : Text
  /-- The array bound, if the member is an array. -/
  size : Option Text
  /-- Where the value starts and ends. -/
  valueSpan : Nat × Nat
deriving DecidableEq, Repr

/-- Reads the type in front of a static member, with the blank behind it. -/
def staticInitType : Reader (Text × Nat) := do
  let start ← Reader.here
  let run ← Reader.many1 fun c => isWord c || c == ':' || c == '<' || c == '>'
  let marker ← Reader.option do
    let gap ← Reader.many isBlank
    let mark ← Reader.satisfy fun c => c == '*' || c == '&'
    pure (gap ++ [mark])
  Reader.blanks1
  pure (run ++ marker.getD [], start)

/-- Reads a value up to its semicolon and gives its span. Blanks in front are no part of it, unless
there is nothing else: then the last of them is. -/
def staticInitValue : Reader (Nat × Nat) := do
  let start ← Reader.here
  let value ← Reader.many (· != ';')
  let stop ← Reader.here
  Reader.char ';'
  if value.isEmpty then failure
  else
    let gap := value.takeWhile isBlank
    pure (start + min gap.length (value.length - 1), stop)

/-- Reads the initialization of a static member, with or without `const` and type. -/
def staticInitWith (useConst useType : Bool) : Reader StaticInitMatch := do
  if useConst then
    Reader.text "const"
    Reader.blanks1
  let type ← if useType then some <$> staticInitType else pure none
  let ownerStart ← Reader.here
  let owner ← Reader.many1 isWord
  Reader.blanks
  Reader.text "::"
  Reader.blanks
  let name ← Reader.many1 isWord
  Reader.blanks
  let size ← Reader.option do
    Reader.char '['
    Reader.blanks
    let size ← Reader.many isWord
    Reader.blanks
    Reader.char ']'
    pure size
  Reader.blanks
  Reader.char '='
  let valueSpan ← staticInitValue
  pure ⟨useConst, type, owner, ownerStart, name, size, valueSpan⟩

/-- Reads the initialization of a static member that starts its line. A `const` and a type are
taken for such as long as the rest can be read that way. -/
def staticInit : Reader StaticInitMatch := do
  Reader.lineStart
  let _ ← Reader.many isSpaceOrTab
  staticInitWith true true <|> staticInitWith true false <|> staticInitWith false true
    <|> staticInitWith false false

/-! ### Directives and scopes -/

/-- Reads the opening of a block whose contents count as file scope, and gives its brace. -/
def scopeBlock : Reader Nat := do
  Reader.wordStart
  (do
    Reader.word "namespace"
    let _ ← Reader.many fun c => c != '{' && c != ';') <|> (do
    Reader.text "extern"
    Reader.blanks1
    Reader.char '"'
    Reader.blanks
    Reader.char '"'
    Reader.blanks)
  let brace ← Reader.here
  Reader.char '{'
  pure brace

/-- The line of a region marker. -/
structure RegionLine where
  opens : Bool
  start : Nat
  /-- Where the name starts and ends. -/
  nameSpan : Nat × Nat
deriving DecidableEq, Repr

/-- Reads the line of a region marker. -/
def regionLine : Reader RegionLine := do
  Reader.lineStart
  let start ← Reader.here
  let _ ← Reader.many isSpaceOrTab
  Reader.char '#'
  Reader.blanks
  let _ ← Reader.option (do Reader.text "pragma"; Reader.blanks1)
  let kind ← Reader.oneOf ["region", "endregion"]
  Reader.wordEnd
  let _ ← Reader.many isSpaceOrTab
  let nameStart ← Reader.here
  let _ ← Reader.many (· != '\n')
  let nameStop ← Reader.here
  pure ⟨kind == "region", start, nameStart, nameStop⟩

/-- Reads a `#define` directive and gives its span. -/
def defineLine : Reader (Nat × Nat) := do
  Reader.lineStart
  let start ← Reader.here
  let _ ← Reader.many isSpaceOrTab
  Reader.char '#'
  Reader.blanks
  Reader.word "define"
  let _ ← Reader.many (· != '\n')
  let stop ← Reader.here
  pure (start, stop)

end Sharpen
