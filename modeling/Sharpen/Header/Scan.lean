import Sharpen.Decl.Comment
import Sharpen.Decl.Owner
import Sharpen.Header.Construct
import Sharpen.Header.MemberDecl
import Sharpen.Header.MethodDecl

/-!
# Reading a header

A header is read in steps. Outside a type a step takes a line, a block or the head of a type; inside
a type it takes one construct of the body: an access label, a directive, a method or a member. Every
step moves on, so the reading ends.

What has been read is a value, and a step gives the next one with the position to go on from.
Comments are claimed when they are taken, so that each goes to one declaration. A region marker
waits for the next item of a type, or goes to the last one if it closes the region. What is still
open at the end of the text is finished there.

## Main definitions

* `HeaderScan` is what has been read so far, with the type that is open.
* `outsideStep` and `insideStep` are the steps, `closeType` ends a type.
* `parseHeader` reads a header.
* `ItemKind` is the kinds of items in the body of a type.
* `OpenType` is a type whose body is being read.
* `pureVirtual` is recognises the end of a pure virtual declaration.
-/

namespace Sharpen

/-! ### State -/

/-- The kinds of items in the body of a type. -/
inductive ItemKind where
  | method
  | member
deriving DecidableEq, Repr

/-- A type whose body is being read. -/
structure OpenType where
  decl : TypeDecl
  /-- The position of the closing brace, or the end of the text if there is none. -/
  bodyEnd : Nat
  isTypedef : Bool
  /-- The visibility that the last access label gave. -/
  visibility : Visibility
  /-- The region marker that the next item takes. -/
  pendingRegion : Text := []
  /-- The kind of the last item, which the end of a region is attached to. -/
  lastItem : Option ItemKind := none
deriving Repr

/-- What has been read of a header. -/
structure HeaderScan where
  claimed : List Nat := []
  types : List TypeDecl := []
  constants : List Constant := []
  current : Option OpenType := none
  /-- The number of members and methods so far. -/
  order : Nat := 0
  notices : List HeaderNotice := []
deriving Repr

namespace HeaderScan

/-- Adds a report. -/
def report (s : HeaderScan) (n : HeaderNotice) : HeaderScan :=
  { s with notices := s.notices ++ [n] }

end HeaderScan

/-- The list with its last element changed. -/
def modifyLast {α : Type} (f : α → α) (l : List α) : List α :=
  l.modify (l.length - 1) f

/-- Takes the comment above line `line`. -/
def HeaderScan.takeComments (s : HeaderScan) (page : Page) (line : Nat) :
    List Text × HeaderScan :=
  let taken := collectComments page.lines line s.claimed
  (taken.lines, { s with claimed := taken.claimed })

/-! ### Opening and closing types -/

/-- Recognises the end of a pure virtual declaration. -/
def pureVirtual : Reader Unit := do
  Reader.char ')'
  Reader.blanks
  let _ ← Reader.option (do Reader.text "const"; Reader.blanks)
  let _ ← Reader.option (do Reader.text "override"; Reader.blanks)
  Reader.char '='
  Reader.blanks
  Reader.char '0'
  Reader.blanks
  Reader.char ';'

/-- The kind of a type with the given masked body: a class with a pure virtual method is an
interface. -/
def kindOfType (isStruct : Bool) (body : Text) : TypeKind :=
  if isStruct then .structType
  else if pureVirtual.occursIn body then .interfaceType
  else .classType

/-- How a struct with the given head was introduced. -/
def structFormOf (head : TypeHead) : Option StructForm :=
  if !head.isStruct then none
  else if !head.isTypedef then some .plain
  else if head.name.isEmpty then some .typedef
  else some .tagged

/-- Opens the type with the given head, which stands on line `line`. -/
def openType (page : Page) (s : HeaderScan) (head : TypeHead) (line : Nat) : HeaderScan :=
  let close := (matchingAt? '{' '}' page.masked head.brace).getD page.text.length
  let (comments, s) := s.takeComments page line
  let decl : TypeDecl :=
    { name := head.name
      kind := kindOfType head.isStruct (page.masked.slice (head.brace + 1) close)
      isExported := head.isExported
      bases := head.bases
      comments := comments
      file := page.stem
      structForm := structFormOf head }
  let opened : OpenType :=
    { decl := decl
      bodyEnd := close
      isTypedef := head.isTypedef
      visibility := decl.defaultVisibility }
  { s with current := some opened }

/-- A method as its finished type `name` has it: a method without return type that is called like
the type is a constructor. -/
def ownedMethod (name : Text) (m : Method) : Method :=
  { m with
    owner := name
    isConstructor := m.isConstructor
      || (m.returnType.isEmpty && !m.isDestructor && m.name == name) }

/-- Finishes a type. The name behind the closing brace, if there is one, replaces the name in the
head; a type without any name is dropped. -/
def finishType (s : HeaderScan) (o : OpenType) (closingName : Text) : HeaderScan :=
  let name := if closingName.isEmpty then o.decl.name else closingName
  if name.isEmpty then { s with current := none }.report .anonymousType
  else
    let decl := { o.decl with name := name, methods := o.decl.methods.map (ownedMethod name) }
    { s with current := none, types := s.types ++ [decl] }

/-- Ends the open type at its closing brace and gives the position to go on from. -/
def closeType (page : Page) (s : HeaderScan) (o : OpenType) : HeaderScan × Nat :=
  let start := o.bodyEnd + 1
  match closeTail.readAt page.masked start with
  | some (name, stop) =>
    (finishType s o (if o.isTypedef then name else []), page.afterStatement stop)
  | none => (finishType s o [], page.afterStatement start)

/-! ### Outside types -/

/-- One step outside types, from position `pos`. -/
def outsideStep (page : Page) (s : HeaderScan) (pos : Nat) : HeaderScan × Nat :=
  let line := page.fileLine pos
  match page.fileItem pos with
  | .blank | .directive | .scope | .code => (s, line.next)
  | .constant =>
    let (comments, s) := s.takeComments page line.number
    let constant := Constant.ofLine? line.text page.stem true comments pos
    ({ s with constants := s.constants ++ constant.toList }, line.next)
  | .head head => (openType page s head line.number, head.brace + 1)
  | .block brace =>
    match matchingAt? '{' '}' page.masked brace with
    | none => (s, page.text.length)
    | some close =>
      (s.report (.blockSkipped (line.number + 1)), page.afterStatement (close + 1))

/-! ### Inside a type -/

/-- Recognises the marker of a region: whether it opens one, and the region's name. -/
def regionMarker : Reader (Bool × Text) := do
  Reader.char '#'
  Reader.blanks
  let _ ← Reader.option (do Reader.text "pragma"; Reader.blanks1)
  let kind ← Reader.oneOf ["region", "endregion"]
  Reader.wordEnd
  let name ← Reader.many fun _ => true
  pure (kind == "region", name.trim)

/-- The comment that keeps the marker of a region. -/
def regionComment (opens : Bool) (name : Text) : Text :=
  (if opens then ("//#region" : Text) else "//#endregion") ++
    (if name.isEmpty then [] else ' ' :: name)

/-- Attaches the end of a region to the last item. -/
def OpenType.endRegion (o : OpenType) (marker : Text) : OpenType :=
  match o.lastItem with
  | none => o
  | some .method =>
    { o with decl.methods :=
        modifyLast (fun m => { m with headerRegionEnd := marker }) o.decl.methods }
  | some .member =>
    { o with decl.members :=
        modifyLast (fun m => { m with regionEnd := marker }) o.decl.members }

/-- Adds a method, which takes the pending region marker. -/
def OpenType.addMethod (o : OpenType) (m : Method) : OpenType :=
  { o with
    decl.methods := o.decl.methods ++ [{ m with headerRegionStart := o.pendingRegion }]
    pendingRegion := []
    lastItem := some .method }

/-- Adds a member, which takes the pending region marker. -/
def OpenType.addMember (o : OpenType) (m : Member) : OpenType :=
  { o with
    decl.members := o.decl.members ++ [{ m with regionStart := o.pendingRegion }]
    pendingRegion := []
    lastItem := some .member }

/-- Takes a directive in the body of a type: a region marker, a constant, or nothing of use. -/
def directive (page : Page) (s : HeaderScan) (o : OpenType) (line : Text) (lineNumber pos : Nat) :
    HeaderScan :=
  match regionMarker.read line with
  | some (true, name) =>
    { s with current := some { o with pendingRegion := regionComment true name } }
  | some (false, name) => { s with current := some (o.endRegion (regionComment false name)) }
  | none =>
    if (splitDefine? line).isSome then
      let (comments, s) := s.takeComments page lineNumber
      let constant := Constant.ofLine? line page.stem true comments pos
      { s with current := some { o with
          decl.headerConstants := o.decl.headerConstants ++ constant.toList } }
    else s.report (.directiveIgnored line)

/-- A comment behind a declaration: its text, the position behind it and the lines it takes. -/
structure TrailingComment where
  text : Text := []
  stop : Nat
  lines : List Nat := []
deriving DecidableEq, Repr

/-- Finds the comment that follows position `pos` on its line. A block comment may go on over
further lines, which keep their layout relative to each other. -/
def trailingComment (page : Page) (pos : Nat) : TrailingComment :=
  let lineEnd := page.lineEnd pos
  let rest : Text := page.text.slice pos lineEnd
  let comment := rest.trimStart
  if comment.startsWith "//" then { text := comment.trimEnd, stop := lineEnd }
  else if comment.startsWith "/*" then
    let start := pos + (rest.length - comment.length)
    let stop := ((Text.findFrom? page.text "*/" (start + 2)).map (· + 2)).getD page.text.length
    let (first, others) := Text.cutLine (page.text.slice start stop)
    let firstLine := page.lineOf start
    { text := first.trimEnd ++ (if others.isEmpty then [] else '\n' :: (normalizeBlock others).1)
      stop := stop
      lines := List.range' firstLine (page.lineOf stop + 1 - firstLine) }
  else { stop := pos }

/-- Takes the method declared from `start` to `stop`. -/
def methodStep (page : Page) (s : HeaderScan) (o : OpenType) (start stop line : Nat) :
    HeaderScan :=
  match methodDecl page.stem o.decl.name o.visibility start (page.masked.slice start stop)
      (page.text.slice start stop) with
  | .nothing => s
  | .refused notice => s.report notice
  | .method m =>
    let (comments, s) := s.takeComments page line
    let m := { m with order := s.order + 1, headerComments := comments }
    { s with order := s.order + 1, current := some (o.addMethod m) }

/-- Takes the member declared from `start` to the given semicolon, and gives the position behind
the comment that follows it. -/
def memberStep (page : Page) (s : HeaderScan) (o : OpenType) (start semicolon line : Nat) :
    HeaderScan × Nat :=
  let code := memberCode (page.text.slice start (semicolon + 1))
  let trailing := trailingComment page (semicolon + 1)
  let s := { s with claimed := s.claimed ++ trailing.lines }
  match memberDecl? o.visibility code with
  | none => (s.report (.memberDropped o.decl.name code), trailing.stop)
  | some m =>
    let (comments, s) := s.takeComments page line
    let m := { m with
      order := s.order + 1, comments := comments, trailingComment := trailing.text }
    ({ s with order := s.order + 1, current := some (o.addMember m) }, trailing.stop)

/-- Reports a construct of the type `name` that is passed over, where this is worth a report. -/
def HeaderScan.reportPassed (s : HeaderScan) (name : Text) (line : BodyLine) :
    PassedOver → HeaderScan
  | .keyword => s
  | .nestedType _ => s.report (.nestedTypeSkipped (line.number + 1))
  | .macroCall => s.report (.macroSkipped line.text)
  | .unknown => s.report (.constructDropped name line.text)

/-- Takes a construct of the open type `o` whose code starts on the given line. -/
def takeConstruct (page : Page) (s : HeaderScan) (o : OpenType) (line : BodyLine) :
    Construct → HeaderScan × Nat
  | .label visibility stop => ({ s with current := some { o with visibility := visibility } }, stop)
  | .passed reason next => (s.reportPassed o.decl.name line reason, next)
  | .method stop =>
    (methodStep page s o line.start stop line.number, page.afterStatementWithin stop o.bodyEnd)
  | .member semicolon =>
    let (s, after) := memberStep page s o line.start semicolon line.number
    (s, page.afterStatementWithin after o.bodyEnd)

/-- One step inside the open type `o`, from position `pos`. -/
def insideStep (page : Page) (s : HeaderScan) (o : OpenType) (pos : Nat) : HeaderScan × Nat :=
  let line := page.bodyLine o.bodyEnd pos
  match page.bodyItem o.decl.name o.bodyEnd pos with
  | .blank => (s, line.next)
  | .directive => (directive page s o line.text line.number pos, line.next)
  | .construct c => takeConstruct page s o line c

/-! ### The whole header -/

/-- One step from position `pos`, and the position it leads to. -/
def headerStep (page : Page) (s : HeaderScan) (pos : Nat) : HeaderScan × Nat :=
  match s.current with
  | none => outsideStep page s pos
  | some o => if o.bodyEnd ≤ pos then closeType page s o else insideStep page s o pos

/-- Steps on from position `pos` to the end of the text. -/
def headerLoop (page : Page) (s : HeaderScan) (pos : Nat) : HeaderScan :=
  if pos < page.text.length then
    let (s', next) := headerStep page s pos
    if pos < next then headerLoop page s' next else s'
  else s
termination_by page.text.length - pos

/-- Finishes a type whose closing brace is missing. -/
def finishOpenType (s : HeaderScan) : HeaderScan :=
  match s.current with
  | none => s
  | some o => finishType (s.report (.missingBrace o.decl.name)) o []

/-- Gives the constants outside types to one of the types. -/
def assignConstants (types : List TypeDecl) (owner : Nat) (constants : List Constant) :
    List TypeDecl :=
  types.modify owner fun d =>
    { d with headerConstants :=
        (d.headerConstants ++ constants).mergeSort fun a b => a.position ≤ b.position }

/-- Reads a page as a header. -/
def readHeader (page : Page) : Header × List HeaderNotice :=
  let banner := bannerComments page.lines
  let s := finishOpenType (headerLoop page { claimed := banner.claimed } 0)
  let header : Header :=
    { stem := page.stem, types := s.types, constants := s.constants, banner := banner.lines }
  match constantOwner? s.types page.stem with
  | some owner => ({ header with types := assignConstants s.types owner s.constants }, s.notices)
  | none =>
    if s.constants.isEmpty then (header, s.notices)
    else (header, s.notices ++ [.unownedConstants s.constants.length])

/-- Reads the header with the given text and path, and gives the records of the reading. -/
def parseHeader (text path : Text) : Header × List Record :=
  let page := Page.ofText text path
  let (header, notices) := readHeader page
  (header, notices.map (HeaderNotice.toRecord page.stem))

end Sharpen
