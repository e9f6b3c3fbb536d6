import Sharpen.Header.Scan
import Sharpen.Source.Basic
import Sharpen.Source.Construct

/-!
# Reading a source file

A source file is read in passes over its masked text, one for each kind of construct at file scope.
A stretch of text that one pass has taken is not looked at by later ones; at the end everything is
ordered by position, so that the order of the passes does not show.

The passes take, in this order, the constants, the types that the file defines, implementations in
two forms, free functions, and the initializers of static members. A pass takes a match only at file
scope, and from the implementations on only where nothing was taken before. At the end all is
numbered by position, and region markers are given to the methods around them.

## Main definitions

* `depthMap` is the brace depth before each position, by which file scope is known.
* `SourceScan` is what has been taken so far.
* `parseSource` reads a source file.
* `scopeBraces` is the braces of namespaces and linkage blocks, which do not count as depth.
* `SourcePage` is the page of a source file with its depths.
* `SourcePage.ofText` is the page of a source file.
-/

namespace Sharpen

/-! ### File scope -/

/-- The braces of namespaces and linkage blocks, which do not count as depth. -/
def scopeBraces (masked : Text) : List Nat :=
  (scopeBlock.findAll masked).flatMap fun brace =>
    brace :: (matchingAt? '{' '}' masked brace).toList

/-- The brace depth before each position, from position `i` on, where the depth is `depth`. -/
def depthsFrom (ignored : List Nat) : (i depth : Nat) → Text → List Nat
  | _, depth, [] => [depth]
  | i, depth, c :: r =>
    let next :=
      if ignored.contains i then depth
      else if c == '{' then depth + 1
      else if c == '}' then depth - 1
      else depth
    depth :: depthsFrom ignored (i + 1) next r

/-- The brace depth before each position of a masked text, and at its end. -/
def depthMap (masked : Text) : List Nat :=
  depthsFrom (scopeBraces masked) 0 0 masked

/-- The page of a source file with its depths. -/
structure SourcePage extends Page where
  depths : List Nat
deriving Repr

/-- The page of a source file. -/
def SourcePage.ofText (text path : Text) : SourcePage :=
  let page := Page.ofText text path
  { page with depths := depthMap page.masked }

/-- Whether a position is at file scope. -/
def SourcePage.atFileScope (page : SourcePage) (i : Nat) : Bool :=
  page.depths.getD i 0 == 0

/-! ### State -/

/-- What has been taken of a source file. -/
structure SourceScan where
  /-- The comment lines that have been used. -/
  claimed : List Nat := []
  /-- The stretches of text that have been taken. -/
  spans : List (Nat × Nat) := []
  records : List Record := []
deriving Repr

namespace SourceScan

/-- Whether a position has been taken. -/
def isTaken (s : SourceScan) (i : Nat) : Bool :=
  s.spans.any fun span => span.1 ≤ i && i < span.2

/-- Adds a report. -/
def report (s : SourceScan) (page : SourcePage) (n : SourceNotice) : SourceScan :=
  { s with records := s.records ++ [n.toRecord page.stem] }

/-- Takes the comment above position `i`. -/
def takeComments (s : SourceScan) (page : SourcePage) (i : Nat) : Collected × SourceScan :=
  let taken := collectComments page.lines (page.lineOf i) s.claimed
  (taken, { s with claimed := taken.claimed })

end SourceScan

/-! ### Methods -/

/-- What has been found out about a definition before its body is read. -/
structure Definition where
  head : Text
  owner : Text
  name : Text
  parameters : Text
  isConst : Bool
  initializers : Text
  /-- Where the definition starts. -/
  start : Nat
  /-- The position of the body's opening brace. -/
  brace : Nat
deriving Repr

/-- The words in front of a definition that are no part of its return type. -/
def headKeywords : List Text :=
  ["static", "inline", "virtual", "extern", "__inline", "__forceinline"]

/-- The words of a head that belong to the return type. -/
def headWords (head : Text) : List Text :=
  (Text.words head).filter fun w => !headKeywords.contains w

/-- Reads a definition with its body and takes its text and the comment above it. -/
def SourceScan.define (s : SourceScan) (page : SourcePage) (d : Definition) :
    Method × SourceScan :=
  let returnType := normalizeType (Text.join " " (headWords d.head))
  let isDestructor := d.name.startsWith "~"
  let closing := matchingAt? '{' '}' page.masked d.brace
  let s := if closing.isSome then s
    else s.report page (.unterminatedBody (page.lineOf d.brace + 1))
  let close := closing.getD page.text.length
  let (body, indent) := normalizeBlock (page.text.slice (d.brace + 1) close)
  let (comments, s) :=
    { s with spans := s.spans ++ [(d.start, close + 1)] }.takeComments page d.start
  let method : Method :=
    { name := d.name
      returnType := returnType
      parameters := parseParameters d.parameters
      isConst := d.isConst
      isConstructor := !isDestructor && d.name == d.owner && returnType.isEmpty
      isDestructor := isDestructor
      initializers := parseInitializers d.initializers
      body := some body
      bodyIndent := indent
      owner := d.owner
      targetFile := page.stem
      originFile := page.stem
      position := d.start
      sourceComments := comments.lines
      sourceCommentIndent := comments.indent }
  (method, s)

/-- How far the statement at the end of a masked text, given in reverse, reaches back: to a
semicolon, a brace or a line with a directive. -/
def statementReach : Text → Nat
  | [] => 0
  | c :: r =>
    if c == ';' || c == '{' || c == '}' then 0
    else if c == '\n'
        && (Text.trimStart (r.takeWhile (· != '\n')).reverse).head? == some '#' then 0
    else statementReach r + 1

/-- Where the statement that goes on at position `i` starts. -/
def statementStart (masked : Text) (i : Nat) : Nat :=
  let reach := statementReach (masked.take i).reverse
  let statement : Text := masked.slice (i - reach) i
  i - reach + (statement.takeWhile isBlank).length

/-- Whether a text can be the head of a definition. -/
def isDefinitionHead (head : Text) : Bool :=
  !(head.contains '=' || head.contains '(')

/-- The return type on the lines above position `i`, and where it starts. -/
def headAbove (masked : Text) (i : Nat) : Text × Nat :=
  let start := statementStart masked i
  let head : Text := masked.slice start i
  if head.isBlank || !isDefinitionHead head then ([], i) else (head, start)

/-- The text of a list of member initializers. -/
def initText (page : SourcePage) (tail : BodyTail) : Text :=
  (tail.initSpan.map fun span => page.text.slice span.1 span.2).getD []

/-- Takes an implementation of the usual form. -/
def takeImplementation (page : SourcePage) (acc : List Method × SourceScan) (m : Implementation) :
    List Method × SourceScan :=
  let (methods, s) := acc
  if !page.atFileScope m.start || s.isTaken m.start then acc
  else
    let (head, start) :=
      if m.head.isBlank then headAbove page.masked m.target.ownerStart else (m.head, m.start)
    let (method, s) := s.define page
      { head := head
        owner := m.target.owner
        name := m.target.name
        parameters := page.text.slice (m.target.paren + 1) m.parenEnd
        isConst := m.tail.isConst
        initializers := initText page m.tail
        start := start
        brace := m.tail.brace }
    (methods ++ [method], s)

/-- Takes an implementation of another form: with parentheses in its parameters, or with the return
type on a line above. -/
def recoverImplementation (page : SourcePage) (acc : List Method × SourceScan) (m : ScopedName) :
    List Method × SourceScan :=
  let (methods, s) := acc
  if !page.atFileScope m.ownerStart || s.isTaken m.ownerStart
      || Text.endsWith (page.masked.take m.ownerStart) "::" then acc
  else
    let found : Option (Nat × BodyTail) := do
      let parenEnd ← matchingAt? '(' ')' page.masked m.paren
      let tail ← bodyTail.readAt page.masked (parenEnd + 1)
      some (parenEnd, tail)
    match found with
    | none => acc
    | some (parenEnd, tail) =>
      let start := statementStart page.masked m.ownerStart
      let head : Text := page.masked.slice start m.ownerStart
      if !isDefinitionHead head then acc
      else
        let (method, s) := s.define page
          { head := head
            owner := m.owner
            name := m.name
            parameters := page.text.slice (m.paren + 1) parenEnd
            isConst := tail.isConst
            initializers := initText page tail
            start := if head.isBlank then m.ownerStart else start
            brace := tail.brace }
        (methods ++ [method], s)

/-- Adds the methods that are not read already. -/
def addUnseen (methods : List Method) (more : List Method) : List Method :=
  more.foldl (fun seen m =>
    if seen.any fun k => k.identity == m.identity then seen else seen ++ [m]) methods

/-! ### Free functions -/

/-- The names in front of parentheses that are no functions. -/
def notFunctions : List Text :=
  ["if", "for", "while", "switch", "return", "catch", "sizeof", "defined", "namespace", "else",
   "do"]

/-- The types and functions found so far. -/
structure FoundFunctions where
  structs : List TypeDecl
  locals : List Method := []
  scan : SourceScan
deriving Repr

/-- The index of the last type called `name`. -/
def lastNamed? (types : List TypeDecl) (name : Text) : Option Nat :=
  lastBelow? (fun i => types[i]?.any (·.name == name)) types.length

/-- Takes a free function. Without a return type it is the constructor of a type defined in the
file, or it is passed over. -/
def takeFreeFunction (page : SourcePage) (found : FoundFunctions) (m : FreeFunction) :
    FoundFunctions :=
  if notFunctions.contains m.name || !page.atFileScope m.nameStart
      || found.scan.isTaken m.nameStart then found
  else
    let parsed : Option (Nat × BodyTail) := do
      let parenEnd ← matchingAt? '(' ')' page.masked m.paren
      let tail ← bodyTail.readAt page.masked (parenEnd + 1)
      if tail.initSpan.isSome then none else some (parenEnd, tail)
    match parsed with
    | none => found
    | some (parenEnd, tail) =>
      let words := headWords m.head
      let definition : Definition :=
        { head := Text.join " " words
          owner := []
          name := m.name
          parameters := page.text.slice (m.paren + 1) parenEnd
          isConst := tail.isConst
          initializers := []
          start := if m.head.isBlank then m.nameStart else m.headStart
          brace := tail.brace }
      if words.isEmpty then
        match lastNamed? found.structs m.name with
        | none => { found with scan := found.scan.report page (.ownerlessSkipped m.name) }
        | some i =>
          let (method, s) := found.scan.define page
            { definition with owner := m.name, isConst := false }
          let method := { method with isConstructor := true, visibility := .pub }
          { found with
            scan := s
            structs := found.structs.modify i fun d => { d with methods := d.methods ++ [method] } }
      else
        let (method, s) := found.scan.define page definition
        let method := { method with isLocal := true, isStatic := true, visibility := .priv }
        { found with scan := s, locals := found.locals ++ [method] }

/-! ### Types, static members and constants -/

/-- A type as it is kept for the file that defines it at position `start`. -/
def embed (stem : Text) (start : Nat) (comments : List Text) (d : TypeDecl) : TypeDecl :=
  { d with
    file := stem
    comments := if comments.isEmpty then d.comments else comments
    methods := d.methods.map fun m =>
      { m with position := start + m.position, targetFile := stem } }

/-- Takes a type that is defined in the file. -/
def takeEmbeddedType (path : Text) (page : SourcePage) (acc : List TypeDecl × SourceScan)
    (m : Nat × Nat) : List TypeDecl × SourceScan :=
  let (types, s) := acc
  let (start, brace) := m
  match matchingAt? '{' '}' page.masked brace with
  | none => acc
  | some close =>
    if !page.atFileScope start then acc
    else
      let stop := ((Text.findChar? page.masked ';' close).map (· + 1)).getD page.text.length
      let (parsed, records) := parseHeader (page.text.slice start stop) path
      let (comments, s) := { s with records := s.records ++ records }.takeComments page start
      let firstLine := page.lineOf start
      (types ++ parsed.types.map (embed page.stem start comments.lines),
        { s with
          spans := s.spans ++ [(start, stop)]
          claimed := s.claimed ++ List.range' firstLine (page.lineOf stop + 1 - firstLine) })

/-- The initialization of a static member that a match stands for, if it is at file scope and not
part of something else. -/
def staticInitOf? (page : SourcePage) (s : SourceScan) (m : StaticInitMatch) : Option StaticInit :=
  let start := (m.type.map Prod.snd).getD m.ownerStart
  if !page.atFileScope start || s.isTaken start then none
  else
    let value := (normalizeBlock (page.text.slice m.valueSpan.1 m.valueSpan.2)).1
    some
      { owner := m.owner
        name := m.name
        value := value
        type := (m.type.map fun t => normalizeType t.1).getD "auto"
        isConst := m.isConst
        isArray := m.size.isSome || value.head? == some '{'
        arraySize := m.size.getD []
        position := start }

/-- Takes a constant. -/
def takeConstant (page : SourcePage) (acc : List Constant × SourceScan) (span : Nat × Nat) :
    List Constant × SourceScan :=
  let (constants, s) := acc
  let line : Text := page.text.slice span.1 span.2
  if !page.atFileScope span.1 || (splitDefine? line).isNone then acc
  else
    let (comments, s) := s.takeComments page span.1
    let constant := Constant.ofLine? line page.stem false comments.lines span.1
    (constants ++ constant.toList, s)

/-! ### Order and regions -/

/-- The place of element `i` when elements are ordered by position, counted from one; of equal
positions the earlier element comes first. -/
def rankOf (positions : List Nat) (i : Nat) : Nat :=
  let p := positions.getD i 0
  1 + (positions.zipIdx.countP fun (q, j) => q < p || (q == p && j < i))

/-- Numbers methods by the place of their positions among all positions; the first method is
element `base`. -/
def numberMethods (positions : List Nat) (base : Nat) (methods : List Method) : List Method :=
  methods.mapIdx fun i m => { m with order := rankOf positions (base + i) }

/-- Numbers the methods of types one type after the other. -/
def numberTypes (positions : List Nat) : (base : Nat) → List TypeDecl → List TypeDecl
  | _, [] => []
  | base, d :: r =>
    { d with methods := numberMethods positions base d.methods }
      :: numberTypes positions (base + d.methods.length) r

/-- Methods ordered by position. -/
def sortByPosition (methods : List Method) : List Method :=
  methods.mergeSort fun a b => a.position ≤ b.position

/-- Attaches a region marker to methods ordered by position: the start of a region to the first
method behind it, the end to the last method before it. -/
def attachRegion (page : SourcePage) (methods : List Method) (m : RegionLine) : List Method :=
  let name := Text.trim (page.text.slice m.nameSpan.1 m.nameSpan.2)
  let marker : Text := (if m.opens then ("#region" : Text) else "#endregion") ++
    (if name.isEmpty then [] else ' ' :: name)
  if m.opens then
    match methods.findIdx? fun k => m.start < k.position with
    | some i => methods.modify i fun k => { k with sourceRegionStart := marker }
    | none => methods
  else
    match lastBelow? (fun i => methods[i]?.any (·.position < m.start)) methods.length with
    | some i => methods.modify i fun k => { k with sourceRegionEnd := marker }
    | none => methods

/-- Attaches the region markers at file scope. -/
def attachRegions (page : SourcePage) (methods : List Method) : List Method :=
  ((regionLine.findAll page.masked).filter fun m => page.atFileScope m.start).foldl
    (attachRegion page) methods

/-! ### The whole file -/

/-- Reads the source file with the given text and path, and gives the records of the reading. -/
def parseSource (text path : Text) : Source × List Record :=
  let page := SourcePage.ofText text path
  let banner := bannerComments page.lines
  let s : SourceScan := { claimed := banner.claimed }
  let (constants, s) := (defineLine.findAll page.masked).foldl (takeConstant page) ([], s)
  let (structs, s) := (embeddedType.findAll page.masked).foldl (takeEmbeddedType path page) ([], s)
  let (primary, s) := (implementation.findAll page.masked).foldl (takeImplementation page) ([], s)
  let (recovered, s) := (scopedName.findAll page.masked).foldl (recoverImplementation page) ([], s)
  let methods := addUnseen primary recovered
  let found := (freeFunction.findAll page.masked).foldl (takeFreeFunction page)
    { structs := structs, scan := s }
  let inits := (staticInit.findAll page.masked).filterMap (staticInitOf? page found.scan)
  let positions := methods.map Method.position ++ found.locals.map Method.position
    ++ inits.map StaticInit.position ++ found.structs.flatMap fun d => d.methods.map Method.position
  let numbered := numberMethods positions 0 (methods ++ found.locals)
  let placed := attachRegions page (sortByPosition numbered)
  let source : Source :=
    { stem := page.stem
      methods := placed.filter fun m => !m.isLocal
      locals := placed.filter Method.isLocal
      structs := numberTypes positions
        (methods.length + found.locals.length + inits.length) found.structs
      staticInits := inits.mergeSort fun a b => a.position ≤ b.position
      constants := constants
      banner := banner.lines }
  (source, found.scan.records)

end Sharpen
