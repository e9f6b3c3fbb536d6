import Sharpen.Code.Bracket
import Sharpen.Code.Line
import Sharpen.Decl.Constant
import Sharpen.Header.TypeHead

/-!
# What a header is made of

What stands at a place of a header is decided by the page alone, before anything is taken of it.
Outside a type that is a constant, the head of a type, a block or a line of code; in the body of a
type it is a directive, an access label, a method, a member or something to be passed over.

The functions here only look and change nothing, and the steps of the reading go by what they find.
So what a step does and what has to be shown of it are decided by the same case distinction. The
order of the questions matters: a nested type is looked for before a label, a macro before a member,
and a statement without a name is passed over.

## Main definitions

* `Page.fileItem` finds what stands at a place outside types.
* `Page.bodyItem` finds what stands at a place of a body, and `Page.constructAt` which construct it
  is if it is code.
* `Page.lineEndWithin` is the end of the line that position `i` is on, but at most `limit`.
* `nextLine` says where the next line starts, but at most `limit`.
* `Page.afterStatementWithin` says where to go on after a statement of a type's body that ends at
  `i`: on the next line if only blanks and semicolons are left on this one.
* `Page.afterStatement` says where to go on after a statement outside types that ends at `i`.
-/

namespace Sharpen

/-! ### Positions -/

/-- The end of the line that position `i` is on, but at most `limit`. -/
def Page.lineEndWithin (page : Page) (i limit : Nat) : Nat :=
  min (page.lineEnd i) limit

/-- Where the next line starts, but at most `limit`. -/
def nextLine (lineEnd limit : Nat) : Nat :=
  if lineEnd < limit then lineEnd + 1 else limit

/-- Whether a masked text holds only blanks and semicolons. -/
def isStatementRest (t : Text) : Bool :=
  t.all fun c => c == ';' || isBlank c

/-- Where to go on after a statement of a type's body that ends at `i`: on the next line if only
blanks and semicolons are left on this one. -/
def Page.afterStatementWithin (page : Page) (i limit : Nat) : Nat :=
  let lineEnd := page.lineEndWithin i limit
  if isStatementRest (page.masked.slice i lineEnd) then nextLine lineEnd limit else i

/-- Where to go on after a statement outside types that ends at `i`. -/
def Page.afterStatement (page : Page) (i : Nat) : Nat :=
  let lineEnd := page.lineEnd i
  if isStatementRest (page.masked.slice i lineEnd) then lineEnd + 1 else i

/-- The position of the semicolon or closing brace that ends a statement, in a masked text that is
reached with the given depths of parentheses and braces. -/
def statementOffset? : (parens braces : Int) → Text → Option Nat
  | _, _, [] => none
  | parens, braces, c :: r =>
    if c == '(' then (statementOffset? (parens + 1) braces r).map (· + 1)
    else if c == ')' then (statementOffset? (parens - 1) braces r).map (· + 1)
    else if c == '{' then (statementOffset? parens (braces + 1) r).map (· + 1)
    else if c == '}' then
      if braces - 1 == 0 && parens == 0 then some 0
      else (statementOffset? parens (braces - 1) r).map (· + 1)
    else if c == ';' && parens == 0 && braces == 0 then some 0
    else (statementOffset? parens braces r).map (· + 1)

/-- The last position of the statement that starts at `i`; it ends before `limit`. -/
def Page.statementEnd (page : Page) (i limit : Nat) : Nat :=
  ((statementOffset? 0 0 (page.masked.slice i limit)).map (· + i)).getD (limit - 1)

/-! ### Outside types -/

/-- Recognises the start of a block whose contents belong to the file. -/
def scopeOpening : Reader Unit := do
  Reader.blanks
  (Reader.word "namespace") <|> (do
    Reader.text "extern"
    Reader.blanks1
    Reader.text "\"C\"")

/-- The line outside types that a position is on, from there on. -/
structure FileLine where
  /-- What is to be seen of it in the masked copy. -/
  masked : Text
  text : Text
  number : Nat
  /-- Where the next line starts. -/
  next : Nat

/-- The line that position `pos` is on. -/
def Page.fileLine (page : Page) (pos : Nat) : FileLine :=
  let lineEnd := page.lineEnd pos
  { masked := page.masked.slice pos lineEnd
    text := page.text.slice pos lineEnd
    number := page.lineOf pos
    next := lineEnd + 1 }

/-- What stands at a place outside types. -/
inductive FileItem where
  /-- No code on the line. -/
  | blank
  /-- The definition of a constant. -/
  | constant
  /-- Another directive. -/
  | directive
  /-- The head of a type. -/
  | head (head : TypeHead)
  /-- The start of a block whose contents belong to the file. -/
  | scope
  /-- A block whose contents do not matter, with the position of its brace. -/
  | block (brace : Nat)
  /-- Code of no use. -/
  | code
deriving DecidableEq, Repr

/-- What stands at position `pos` outside types. -/
def Page.fileItem (page : Page) (pos : Nat) : FileItem :=
  let line := page.fileLine pos
  if line.masked.isBlank then .blank
  else if line.text.trim.startsWith "#" then
    if (splitDefine? line.text).isSome then .constant else .directive
  else
    match typeHead? page pos with
    | some head => .head head
    | none =>
      match line.masked.findIdx? (· == '{') with
      | some offset =>
        if (scopeOpening.read line.text).isSome then .scope else .block (pos + offset)
      | none => .code

/-! ### Inside a type -/

/-- Recognises an access label and gives its visibility and the position behind it. -/
def accessLabel : Reader (Visibility × Nat) := do
  let label ← Reader.oneOf ["public", "private", "protected"]
  Reader.blanks
  Reader.char ':'
  Reader.notFollowedBy ':'
  let stop ← Reader.here
  let visibility : Visibility :=
    if label == "public" then .pub else if label == "protected" then .prot else .priv
  pure (visibility, stop)

/-- Recognises the start of a type inside a type. -/
def nestedType : Reader Unit := do
  let _ ← Reader.option (do Reader.text "typedef"; Reader.blanks1)
  let _ ← Reader.oneOf ["class", "struct", "union", "enum"]
  Reader.wordEnd

/-- The words that introduce a statement to be passed over. -/
def skippedKeywords : List Text :=
  ["friend", "using", "typedef", "template", "static_assert"]

/-- Whether a masked line is the call of a macro: a name in capitals, and a parenthesis that is
closed at the end. -/
def isMacroLine (t : Text) : Bool :=
  let isCapital (c : Char) : Bool := ('A' ≤ c && c ≤ 'Z') || c == '_'
  let name := t.takeWhile fun c => isCapital c || c.isDigit
  match Text.trimStart (t.drop name.length) with
  | '(' :: r =>
    let call := Text.trimEnd (if r.getLast? == some ';' then r.dropLast else r)
    name.head?.any isCapital && call.getLast? == some ')'
      && !call.dropLast.any fun c => c == ';' || c == '{'
  | _ => false

/-- Recognises what may follow the closing brace of a type: a name, and the semicolon. Gives the
name and the position behind the semicolon. -/
def closeTail : Reader (Text × Nat) := do
  Reader.blanks
  let name ← Reader.many isWord
  Reader.blanks
  Reader.char ';'
  let stop ← Reader.here
  pure (name, stop)

/-- Why a construct is passed over. -/
inductive PassedOver where
  /-- Its first word says so. -/
  | keyword
  /-- It is a type inside the type, whose statement ends at `stop`. -/
  | nestedType (stop : Nat)
  /-- It is the call of a macro. -/
  | macroCall
  /-- It is nothing that is known. -/
  | unknown
deriving DecidableEq, Repr

/-- A construct in the body of a type, as far as the masked copy shows it. -/
inductive Construct where
  /-- An access label, which ends at `stop`. -/
  | label (visibility : Visibility) (stop : Nat)
  /-- Nothing that is taken; the reading goes on from `next`. -/
  | passed (reason : PassedOver) (next : Nat)
  /-- A method declaration up to `stop`. -/
  | method (stop : Nat)
  /-- A member declaration up to its semicolon. -/
  | member (semicolon : Nat)
deriving DecidableEq, Repr

/-- The construct that starts at `start` with the given code up to the end of its line, in the body
of the type `name` that ends at `limit`. The next line starts at `next`. -/
def Page.constructAt (page : Page) (name : Text) (limit start next : Nat) (code : Text) :
    Construct :=
  let word := code.takeWhile fun c => c == '~' || isWord c
  match accessLabel.read code with
  | some (visibility, stop) => .label visibility (start + stop)
  | none =>
    let stop := page.statementEnd start limit
    if word == "template" then .passed .keyword next
    else if skippedKeywords.contains word then
      .passed .keyword (page.afterStatementWithin (stop + 1) limit)
    else if (nestedType.read code).isSome then
      let tail := if page.masked[stop]? == some '}' then closeTail.readAt page.masked (stop + 1)
        else none
      let after := (tail.map Prod.snd).getD (stop + 1)
      .passed (.nestedType stop) (page.afterStatementWithin after limit)
    else if isMacroLine code && (name.isEmpty || !code.startsWith name) then
      .passed .macroCall next
    else
      let statement : Text := page.masked.slice start (stop + 1)
      let head := statement.takeWhile (· != '(')
      if statement.contains '(' && !head.contains '=' then .method (stop + 1)
      else
        match (Text.findChar? page.masked ';' start).filter (· < limit) with
        | some semicolon => .member semicolon
        | none => .passed .unknown next

/-- The line of a body that a position is on, from there on. -/
structure BodyLine where
  /-- Its code in the masked copy, without blanks around it. -/
  code : Text
  /-- Its text, without blanks around it. -/
  text : Text
  number : Nat
  /-- Where its code starts. -/
  start : Nat
  /-- Where the next line starts. -/
  next : Nat

/-- The line that position `pos` is on, in a body that ends at `limit`. -/
def Page.bodyLine (page : Page) (limit pos : Nat) : BodyLine :=
  let lineEnd := page.lineEndWithin pos limit
  let masked : Text := page.masked.slice pos lineEnd
  { code := masked.trim
    text := Text.trim (page.text.slice pos lineEnd)
    number := page.lineOf pos
    start := pos + (masked.length - masked.trimStart.length)
    next := nextLine lineEnd limit }

/-- What stands at a place of a body. -/
inductive BodyItem where
  /-- No code on the line. -/
  | blank
  /-- A directive. -/
  | directive
  /-- A construct. -/
  | construct (c : Construct)
deriving DecidableEq, Repr

/-- What stands at position `pos`, in the body of the type `name` that ends at `limit`. -/
def Page.bodyItem (page : Page) (name : Text) (limit pos : Nat) : BodyItem :=
  let line := page.bodyLine limit pos
  if line.code.isEmpty then .blank
  else if line.text.startsWith "#" then .directive
  else .construct (page.constructAt name limit line.start line.next line.code)

end Sharpen
