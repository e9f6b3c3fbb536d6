import Mathlib.Data.List.Basic
import Sharpen.Proofs.Header.Places

/-!
# What One Step Does

A header is read in steps, and some fifteen ways lead through one of them: over a line, a label, a
statement, a nested type with what follows its brace, a comment behind a member. This module goes
through them once. It says what a step can leave of what has been read and where it leads to, and
what holds of every reading is shown from this alone.

The first thing a step does is to find out what stands at its place, and that is a function of the
page. So a step is described by cases on this value. What is left of the reading is given by one
rule for each case, with the additions it makes, and two lemmas say that a step does what one of the
rules says and leads on. Later proofs are by cases on the rules and never open the step itself.

## Main definitions

* `HeaderScan.Inside` — what a step in the body of a type can leave.
* `Page.LeadsOn` — where such a step leads to: on, but not out of the body.
* `HeaderScan.Outside`, `outsideStep_outside` — the same for a step outside types.
* `declaredMethod` — the method that a statement declares whose parameters end at `closing`, if a
  return type is read from `before` and no body follows.
* `Page.opened` — a type as its head opens it.

## Main results

* `exists_of_methodDecl` — what a method declaration is read as.
* `insideStep_spec` — a step in the body of a type does no more than that.
* `closeType_spec`, `finishType_eq` — the end of a type.
-/

namespace Sharpen

/-! ### Method declarations -/

/-- The method that a statement declares whose parameters end at `closing`, if a return type is read
from `before` and no body follows. -/
def declaredMethod (stem owner : Text) (visibility : Visibility) (position : Nat)
    (masked text : Text) (closing : Nat) (name before : Text) : Method :=
  let opening := parametersStart masked
  let words := Text.words (eraseDeclspecs [' '] (masked.take opening))
  let returnType := normalizeType (dropScope before.trim)
  let tail := methodTail (masked.drop (closing + 1)) (text.drop (closing + 1))
  { name := name
    returnType := returnType
    parameters := parseParameters (text.slice (opening + 1) closing)
    visibility := visibility
    isStatic := words.contains "static"
    isVirtual := words.contains "virtual"
    isConst := startsConst tail.head
    isPure := endsWithValue "0" tail.head
    isDestructor := name.startsWith "~"
    isConstructor := returnType.isEmpty && !name.startsWith "~"
    initializers := tail.initializers
    owner := owner
    originFile := stem
    position := position }

/-- **What a statement is read as** that declares a method: its parameters end at a parenthesis, a
name stands before them, and a body may follow, which is `default` or stands in braces. -/
theorem exists_of_methodDecl {stem owner masked text : Text} {visibility : Visibility}
    {position : Nat} {m : Method}
    (h : methodDecl stem owner visibility position masked text = .method m) :
    ∃ closing name before,
      matchingAt? '(' ')' masked (parametersStart masked) = some closing ∧
      methodName? (Text.join " " ((Text.words (eraseDeclspecs [' ']
        (masked.take (parametersStart masked)))).filter fun w => !methodKeywords.contains w))
          = some (name, before) ∧
      let declared := declaredMethod stem owner visibility position masked text closing name before
      let tail := methodTail (masked.drop (closing + 1)) (text.drop (closing + 1))
      (tail.brace = none ∧ m = declared) ∨
      m = { declared with hasInlineBody := true, targetFile := stem } ∨
      ∃ body indent, m = { declared with
        hasInlineBody := true
        inlineBody := (normalizeBlock body).1
        bodyIndent := indent
        targetFile := stem } := by
  rw [methodDecl] at h
  split at h
  · cases h
  rename_i closing hclosing
  dsimp only at h
  split at h
  · cases h
  split at h
  · cases h
  split at h
  · cases h
  rename_i name before hname
  split at h
  · cases h
  split at h
  · cases h
  refine ⟨closing, name, before, hclosing, hname, ?_⟩
  split at h
  · obtain rfl := MethodReading.method.inj h
    exact Or.inr (Or.inr ⟨_, _, rfl⟩)
  · rename_i hbrace
    split at h
    · obtain rfl := MethodReading.method.inj h
      exact Or.inr (Or.inl rfl)
    · obtain rfl := MethodReading.method.inj h
      exact Or.inl ⟨hbrace, rfl⟩

/-! ### Lines and heads -/

/-- The line of a body that position `pos` is on, from there on. -/
def Page.lineWithin (page : Page) (pos limit : Nat) : Text :=
  Text.trim (page.text.slice pos (page.lineEndWithin pos limit))

/-- A type as its head opens it. -/
def Page.opened (page : Page) (head : TypeHead) (comments : List Text) : OpenType :=
  let close := (matchingAt? '\x7b' '\x7d' page.masked head.brace).getD page.text.length
  let decl : TypeDecl :=
    { name := head.name
      kind := kindOfType head.isStruct (page.masked.slice (head.brace + 1) close)
      isExported := head.isExported
      bases := head.bases
      comments := comments
      file := page.stem
      structForm := structFormOf head }
  { decl := decl
    bodyEnd := close
    isTypedef := head.isTypedef
    visibility := decl.defaultVisibility }

/-! ### Inside a type -/

/-- **What a step inside the open type `o` can leave of the scan `s`**, from position `pos` of its
body, when it leads to position `next`. -/
inductive HeaderScan.Inside (page : Page) (s : HeaderScan) (o : OpenType) (pos next : Nat) :
    HeaderScan → Prop
  | blank
      (hblank : Text.isBlank (page.masked.slice pos (page.lineEndWithin pos o.bodyEnd)) = true) :
      Inside page s o pos next s
  | regionStart {name : Text}
      (hread : regionMarker.read (page.lineWithin pos o.bodyEnd) = some (true, name)) :
      Inside page s o pos next
        { s with current := some { o with pendingRegion := regionComment true name } }
  | regionEnd {name : Text}
      (hread : regionMarker.read (page.lineWithin pos o.bodyEnd) = some (false, name)) :
      Inside page s o pos next
        { s with current := some (o.endRegion (regionComment false name)) }
  | constant {claimed : List Nat}
      (hcode : Text.isBlank (page.masked.slice pos (page.lineEndWithin pos o.bodyEnd)) = false) :
      Inside page s o pos next
        { s with
          claimed := claimed
          current := some { o with
            decl.headerConstants := o.decl.headerConstants ++
              (Constant.ofLine? (page.lineWithin pos o.bodyEnd) page.stem true
                (collectComments page.lines (page.lineOf pos) s.claimed).lines pos).toList } }
  | ignored {notices : List HeaderNotice}
      (hdefine : splitDefine? (page.lineWithin pos o.bodyEnd) = none) :
      Inside page s o pos next { s with notices := notices }
  | label (hline : Text.startsWith (page.lineWithin pos o.bodyEnd) "#" = false)
      (visibility : Visibility) :
      Inside page s o pos next { s with current := some { o with visibility := visibility } }
  | passed {claimed : List Nat} {notices : List HeaderNotice}
      (hline : Text.startsWith (page.lineWithin pos o.bodyEnd) "#" = false) :
      Inside page s o pos next { s with claimed := claimed, notices := notices }
  | method {start order : Nat} {claimed : List Nat} {m : Method}
      (hline : Text.startsWith (page.lineWithin pos o.bodyEnd) "#" = false)
      (hpos : pos ≤ start) (hstart : start < o.bodyEnd) (hnext : start < next)
      (hread : methodDecl page.stem o.decl.name o.visibility start
        (page.masked.slice start (page.statementEnd start o.bodyEnd + 1))
        (page.text.slice start (page.statementEnd start o.bodyEnd + 1)) = .method m) :
      Inside page s o pos next
        { s with
          claimed := claimed
          order := order
          current := some (o.addMethod { m with
            order := order
            headerComments := (collectComments page.lines (page.lineOf pos) s.claimed).lines }) }
  | member {start semicolon order : Nat} {claimed claimed' : List Nat} {m : Member}
      (hline : Text.startsWith (page.lineWithin pos o.bodyEnd) "#" = false)
      (hread : memberDecl? o.visibility (memberCode (page.text.slice start (semicolon + 1)))
        = some m) :
      Inside page s o pos next
        { s with
          claimed := claimed
          order := order
          current := some (o.addMember { m with
            order := order
            comments := (collectComments page.lines (page.lineOf pos) claimed').lines
            trailingComment := (trailingComment page (semicolon + 1)).text }) }

/-- From position `pos` on, `next` is a later position of the body that ends at `limit`. -/
def Page.LeadsOn (page : Page) (pos limit next : Nat) : Prop :=
  min (pos + 1) (min limit page.text.length) ≤ next ∧ next ≤ limit

section

variable {page : Page} {s : HeaderScan} {o : OpenType} {pos next : Nat}

/-- The next line. -/
theorem Page.leadsOn_nextLine (page : Page) (pos limit : Nat) :
    page.LeadsOn pos limit (nextLine (page.lineEndWithin pos limit) limit) := by
  have hline := page.le_lineEnd pos
  refine ⟨?_, Page.nextLine_le _ _⟩
  rw [nextLine, lineEndWithin]
  split <;> omega

/-- What comes after a statement that ends behind `pos`. -/
theorem Page.leadsOn_afterStatementWithin (page : Page) {stop : Nat} (limit : Nat)
    (h : min (pos + 1) (min limit page.text.length) ≤ stop) :
    page.LeadsOn pos limit (page.afterStatementWithin stop limit) := by
  have hafter := page.le_afterStatementWithin stop limit
  exact ⟨by omega, page.afterStatementWithin_le _ _⟩

/-- The end of an access label. -/
theorem Page.leadsOn_label (page : Page) {limit : Nat} {visibility : Visibility} {stop : Nat}
    (hcode : Text.isBlank (page.masked.slice pos (page.lineEndWithin pos limit)) = false)
    (h : accessLabel.read (Text.trim (page.masked.slice pos (page.lineEndWithin pos limit)))
      = some (visibility, stop)) :
    page.LeadsOn pos limit (pos + ((page.masked.slice pos (page.lineEndWithin pos limit)).length
      - (Text.trimStart
          (page.masked.slice pos (page.lineEndWithin pos limit))).length) + stop) := by
  obtain ⟨hpositive, hle⟩ := accessLabel_stop h
  have hstart := page.codeStart_lt pos (Text.trim_isEmpty _ ▸ hcode)
  have hend := page.codeEnd_le pos (page.lineEndWithin pos limit)
  have hlimit : page.lineEndWithin pos limit ≤ limit := Nat.min_le_right _ _
  exact ⟨by omega, by omega⟩

/-- A directive: the marker of a region, a constant, or nothing of use. -/
theorem directive_inside
    (hcode : Text.isBlank (page.masked.slice pos (page.lineEndWithin pos o.bodyEnd)) = false) :
    s.Inside page o pos next
      (directive page s o (page.lineWithin pos o.bodyEnd) (page.lineOf pos) pos) := by
  rw [directive]
  split
  · rename_i hread
    exact .regionStart hread
  · rename_i hread
    exact .regionEnd hread
  · split
    · exact .constant hcode
    · rename_i hdefine
      exact .ignored (Option.not_isSome_iff_eq_none.mp hdefine)

/-- A method declaration, which may be refused. -/
theorem methodStep_inside {start : Nat}
    (hline : Text.startsWith (page.lineWithin pos o.bodyEnd) "#" = false) (hpos : pos ≤ start)
    (hstart : start < o.bodyEnd) (hnext : start < next) :
    s.Inside page o pos next
      (methodStep page s o start (page.statementEnd start o.bodyEnd + 1) (page.lineOf pos)) := by
  rw [methodStep]
  split
  · exact .passed hline
  · exact .passed hline
  · rename_i m hread
    exact .method hline hpos hstart hnext hread

/-- A member declaration, which may be dropped. -/
theorem memberStep_inside
    (hline : Text.startsWith (page.lineWithin pos o.bodyEnd) "#" = false) (start semicolon : Nat) :
    s.Inside page o pos next (memberStep page s o start semicolon (page.lineOf pos)).1 := by
  simp only [memberStep]
  split
  · exact .passed hline
  · rename_i m hread
    exact .member hline hread

/-- The position behind a member is the one behind the comment that follows it. -/
theorem memberStep_snd (start semicolon line : Nat) :
    (memberStep page s o start semicolon line).2 = (trailingComment page (semicolon + 1)).stop := by
  simp only [memberStep]
  split <;> rfl

/-- A construct that is passed over leaves no more than a report. -/
theorem reportPassed_eq (s : HeaderScan) (name : Text) (line : BodyLine) (reason : PassedOver) :
    ∃ notices, s.reportPassed name line reason = { s with notices := notices } := by
  cases reason <;> exact ⟨_, rfl⟩

/-- The code of a line, as the masked copy has it. -/
theorem Page.isEmpty_bodyLine (page : Page) (limit pos : Nat) :
    (page.bodyLine limit pos).code.isEmpty
      = Text.isBlank (page.masked.slice pos (page.lineEndWithin pos limit)) :=
  Text.trim_isEmpty _

/-- A step at a line without code leads to the next line. -/
theorem insideStep_blank
    (hblank : Text.isBlank (page.masked.slice pos (page.lineEndWithin pos o.bodyEnd)) = true) :
    insideStep page s o pos = (s, nextLine (page.lineEndWithin pos o.bodyEnd) o.bodyEnd) := by
  simp only [insideStep, Page.bodyItem, Page.isEmpty_bodyLine, hblank, if_true]
  rfl

/-- A step at a directive takes it and leads to the next line. -/
theorem insideStep_directive
    (hcode : Text.isBlank (page.masked.slice pos (page.lineEndWithin pos o.bodyEnd)) = false)
    (hline : Text.startsWith (page.lineWithin pos o.bodyEnd) "#" = true) :
    insideStep page s o pos
      = (directive page s o (page.lineWithin pos o.bodyEnd) (page.lineOf pos) pos,
        nextLine (page.lineEndWithin pos o.bodyEnd) o.bodyEnd) := by
  replace hline : Text.startsWith (page.bodyLine o.bodyEnd pos).text "#" = true := hline
  simp only [insideStep, Page.bodyItem, Page.isEmpty_bodyLine, hcode, hline, if_true,
    Bool.false_eq_true, if_false]
  rfl

/-- A step at other code takes the construct that starts there. -/
theorem insideStep_construct
    (hcode : Text.isBlank (page.masked.slice pos (page.lineEndWithin pos o.bodyEnd)) = false)
    (hline : Text.startsWith (page.lineWithin pos o.bodyEnd) "#" = false) :
    insideStep page s o pos
      = takeConstruct page s o (page.bodyLine o.bodyEnd pos) (page.constructAt o.decl.name o.bodyEnd
        (page.bodyLine o.bodyEnd pos).start (page.bodyLine o.bodyEnd pos).next
        (page.bodyLine o.bodyEnd pos).code) := by
  replace hline : Text.startsWith (page.bodyLine o.bodyEnd pos).text "#" = false := hline
  simp only [insideStep, Page.bodyItem, Page.isEmpty_bodyLine, hcode, hline, Bool.false_eq_true,
    if_false]

/-- **What a construct can be**: where a label ends, where the reading goes on behind what is passed
over, and where a method or member ends. -/
inductive Construct.Ends (page : Page) (limit start next : Nat) (code : Text) : Construct → Prop
  | label {visibility : Visibility} {stop : Nat}
      (h : accessLabel.read code = some (visibility, stop)) :
      Ends page limit start next code (.label visibility (start + stop))
  | line {reason : PassedOver} (h : ∀ stop, reason ≠ .nestedType stop) :
      Ends page limit start next code (.passed reason next)
  | keyword : Ends page limit start next code
      (.passed .keyword (page.afterStatementWithin (page.statementEnd start limit + 1) limit))
  | nestedType {stop : Nat} (h : page.statementEnd start limit < stop) :
      Ends page limit start next code (.passed (.nestedType (page.statementEnd start limit))
        (page.afterStatementWithin stop limit))
  | method (h : List.contains
      (page.masked.slice start (page.statementEnd start limit + 1)) '(' = true) :
      Ends page limit start next code (.method (page.statementEnd start limit + 1))
  | member {semicolon : Nat} (h : Text.findChar? page.masked ';' start = some semicolon)
      (hlimit : semicolon < limit) : Ends page limit start next code (.member semicolon)

/-- Every construct is one of these. -/
theorem Page.ends_constructAt (page : Page) (name : Text) (limit start next : Nat) (code : Text) :
    (page.constructAt name limit start next code).Ends page limit start next code := by
  simp only [constructAt]
  split
  · exact .label ‹_›
  split
  · exact .line nofun
  split
  · exact .keyword
  split
  · refine .nestedType ?_
    split
    · cases htail : closeTail.readAt page.masked (page.statementEnd start limit + 1) with
      | none => exact Nat.lt_succ_self _
      | some tail => exact Nat.lt_of_succ_lt (closeTail_stop htail)
    · exact Nat.lt_succ_self _
  split
  · exact .line nofun
  split
  · rename_i hparen
    exact .method (Bool.and_eq_true_iff.mp hparen).1
  split
  · rename_i semicolon hfind
    obtain ⟨hchar, hlt⟩ := Option.filter_eq_some_iff.mp hfind
    exact .member hchar (of_decide_eq_true hlt)
  · exact .line nofun

/-- **A step inside a type** leads on in its body, and does no more than `HeaderScan.Inside`
says. -/
theorem insideStep_spec (page : Page) (s : HeaderScan) (o : OpenType) (pos : Nat) :
    page.LeadsOn pos o.bodyEnd (insideStep page s o pos).2 ∧
      s.Inside page o pos (insideStep page s o pos).2 (insideStep page s o pos).1 := by
  have hnext := page.leadsOn_nextLine pos o.bodyEnd
  cases hcode : Text.isBlank (page.masked.slice pos (page.lineEndWithin pos o.bodyEnd)) with
  | true =>
      rw [insideStep_blank hcode]
      exact ⟨hnext, .blank hcode⟩
  | false =>
  cases hline : Text.startsWith (page.lineWithin pos o.bodyEnd) "#" with
  | true =>
      rw [insideStep_directive hcode hline]
      exact ⟨hnext, directive_inside hcode⟩
  | false =>
  have hstart : (page.bodyLine o.bodyEnd pos).start < page.lineEndWithin pos o.bodyEnd :=
    page.codeStart_lt pos (Text.trim_isEmpty _ ▸ hcode)
  have hpos : pos ≤ (page.bodyLine o.bodyEnd pos).start := Nat.le_add_right _ _
  have hlimit : page.lineEndWithin pos o.bodyEnd ≤ o.bodyEnd := Nat.min_le_right _ _
  have hstop := page.le_statementEnd _ (Nat.lt_of_lt_of_le hstart hlimit)
  have hends := page.ends_constructAt o.decl.name o.bodyEnd (page.bodyLine o.bodyEnd pos).start
    (page.bodyLine o.bodyEnd pos).next (page.bodyLine o.bodyEnd pos).code
  rw [insideStep_construct hcode hline]
  generalize page.constructAt o.decl.name o.bodyEnd (page.bodyLine o.bodyEnd pos).start
    (page.bodyLine o.bodyEnd pos).next (page.bodyLine o.bodyEnd pos).code = c at hends ⊢
  cases hends with
  | label hlabel => exact ⟨page.leadsOn_label hcode hlabel, .label hline _⟩
  | @line reason =>
      obtain ⟨notices, hreport⟩ :=
        reportPassed_eq s o.decl.name (page.bodyLine o.bodyEnd pos) reason
      rw [takeConstruct, hreport]
      exact ⟨hnext, .passed hline⟩
  | keyword => exact ⟨page.leadsOn_afterStatementWithin _ (by omega), .passed hline⟩
  | nestedType hlt => exact ⟨page.leadsOn_afterStatementWithin _ (by omega), .passed hline⟩
  | method =>
      exact ⟨page.leadsOn_afterStatementWithin _ (by omega), methodStep_inside hline hpos
        (Nat.lt_of_lt_of_le hstart hlimit) (page.lt_afterStatementWithin pos hstart)⟩
  | @member semicolon hfind hlt =>
      obtain ⟨hle, -⟩ := Text.findChar?_eq_some hfind
      refine ⟨?_, memberStep_inside hline _ _⟩
      change page.LeadsOn pos o.bodyEnd
        (page.afterStatementWithin (memberStep page s o _ _ _).2 o.bodyEnd)
      rw [memberStep_snd]
      have hcomment := page.le_stop_trailingComment (semicolon + 1)
      exact page.leadsOn_afterStatementWithin _ (by omega)

end

/-! ### Outside types -/

/-- **What a step outside types can leave of the scan `s`**, from position `pos`, and where it can
lead to. -/
inductive HeaderScan.Outside (page : Page) (s : HeaderScan) (pos : Nat) : HeaderScan → Nat → Prop
  | blank (hblank : Text.isBlank (page.masked.slice pos (page.lineEnd pos)) = true) :
      Outside page s pos s (page.lineEnd pos + 1)
  | constant {claimed : List Nat}
      (hcode : Text.isBlank (page.masked.slice pos (page.lineEnd pos)) = false) :
      Outside page s pos
        { s with
          claimed := claimed
          constants := s.constants ++
            (Constant.ofLine? (page.text.slice pos (page.lineEnd pos)) page.stem true
              (collectComments page.lines (page.lineOf pos) s.claimed).lines pos).toList }
        (page.lineEnd pos + 1)
  | ignored (hdefine : splitDefine? (page.text.slice pos (page.lineEnd pos)) = none) :
      Outside page s pos s (page.lineEnd pos + 1)
  | opens {head : TypeHead} {claimed : List Nat}
      (hline : Text.startsWith (Text.trim (page.text.slice pos (page.lineEnd pos))) "#" = false)
      (hhead : typeHead? page pos = some head) :
      Outside page s pos
        { s with
          claimed := claimed
          current := some (page.opened head
            (collectComments page.lines (page.lineOf pos) s.claimed).lines) }
        (head.brace + 1)
  | passed {notices : List HeaderNotice} {next : Nat}
      (hline : Text.startsWith (Text.trim (page.text.slice pos (page.lineEnd pos))) "#" = false)
      (hnext : min (pos + 1) page.text.length ≤ next) :
      Outside page s pos { s with notices := notices } next

/-- **What stands at a place outside types**, and what says so. -/
inductive FileItem.Stands (page : Page) (pos : Nat) : FileItem → Prop
  | blank (hblank : Text.isBlank (page.masked.slice pos (page.lineEnd pos)) = true) :
      Stands page pos .blank
  | constant (hcode : Text.isBlank (page.masked.slice pos (page.lineEnd pos)) = false)
      (hline : Text.startsWith (Text.trim (page.text.slice pos (page.lineEnd pos))) "#" = true)
      (hdefine : (splitDefine? (page.text.slice pos (page.lineEnd pos))).isSome = true) :
      Stands page pos .constant
  | directive (hcode : Text.isBlank (page.masked.slice pos (page.lineEnd pos)) = false)
      (hline : Text.startsWith (Text.trim (page.text.slice pos (page.lineEnd pos))) "#" = true)
      (hdefine : splitDefine? (page.text.slice pos (page.lineEnd pos)) = none) :
      Stands page pos .directive
  | head {head : TypeHead}
      (hcode : Text.isBlank (page.masked.slice pos (page.lineEnd pos)) = false)
      (hline : Text.startsWith (Text.trim (page.text.slice pos (page.lineEnd pos))) "#" = false)
      (hhead : typeHead? page pos = some head) : Stands page pos (.head head)
  | scope (hcode : Text.isBlank (page.masked.slice pos (page.lineEnd pos)) = false)
      (hline : Text.startsWith (Text.trim (page.text.slice pos (page.lineEnd pos))) "#" = false)
      (hhead : typeHead? page pos = none) {offset : Nat}
      (hbrace : List.findIdx? (· == '\x7b') (page.masked.slice pos (page.lineEnd pos))
        = some offset)
      (hscope : (scopeOpening.read (page.text.slice pos (page.lineEnd pos))).isSome = true) :
      Stands page pos .scope
  | block (hcode : Text.isBlank (page.masked.slice pos (page.lineEnd pos)) = false)
      (hline : Text.startsWith (Text.trim (page.text.slice pos (page.lineEnd pos))) "#" = false)
      (hhead : typeHead? page pos = none) {offset : Nat}
      (hbrace : List.findIdx? (· == '\x7b') (page.masked.slice pos (page.lineEnd pos))
        = some offset)
      (hscope : (scopeOpening.read (page.text.slice pos (page.lineEnd pos))).isSome = false) :
      Stands page pos (.block (pos + offset))
  | code (hcode : Text.isBlank (page.masked.slice pos (page.lineEnd pos)) = false)
      (hline : Text.startsWith (Text.trim (page.text.slice pos (page.lineEnd pos))) "#" = false)
      (hhead : typeHead? page pos = none)
      (hbrace : List.findIdx? (· == '\x7b') (page.masked.slice pos (page.lineEnd pos)) = none) :
      Stands page pos .code

/-- Exactly that stands there. -/
theorem Page.stands_fileItem (page : Page) (pos : Nat) : (page.fileItem pos).Stands page pos := by
  cases hcode : Text.isBlank (page.masked.slice pos (page.lineEnd pos)) with
  | true =>
      simp only [fileItem, fileLine, hcode, if_true]
      exact .blank hcode
  | false =>
  cases hline : Text.startsWith (Text.trim (page.text.slice pos (page.lineEnd pos))) "#" with
  | true =>
      cases hdefine : (splitDefine? (page.text.slice pos (page.lineEnd pos))).isSome with
      | true =>
          simp only [fileItem, fileLine, hcode, hline, hdefine, Bool.false_eq_true, if_true,
            if_false]
          exact .constant hcode hline hdefine
      | false =>
          simp only [fileItem, fileLine, hcode, hline, hdefine, Bool.false_eq_true, if_true,
            if_false]
          exact .directive hcode hline (by simpa using hdefine)
  | false =>
  cases hhead : typeHead? page pos with
  | some head =>
      simp only [fileItem, fileLine, hcode, hline, hhead, Bool.false_eq_true, if_false]
      exact .head hcode hline hhead
  | none =>
  cases hbrace : List.findIdx? (· == '\x7b') (page.masked.slice pos (page.lineEnd pos)) with
  | none =>
      simp only [fileItem, fileLine, hcode, hline, hhead, hbrace, Bool.false_eq_true, if_false]
      exact .code hcode hline hhead hbrace
  | some offset =>
  cases hscope : (scopeOpening.read (page.text.slice pos (page.lineEnd pos))).isSome with
  | true =>
      simp only [fileItem, fileLine, hcode, hline, hhead, hbrace, hscope, Bool.false_eq_true,
        if_true, if_false]
      exact .scope hcode hline hhead hbrace hscope
  | false =>
      simp only [fileItem, fileLine, hcode, hline, hhead, hbrace, hscope, Bool.false_eq_true,
        if_false]
      exact .block hcode hline hhead hbrace hscope

/-- **A step outside types** does no more than `HeaderScan.Outside` says. -/
theorem outsideStep_outside (page : Page) (s : HeaderScan) (pos : Nat) :
    s.Outside page pos (outsideStep page s pos).1 (outsideStep page s pos).2 := by
  have hnext : min (pos + 1) page.text.length ≤ page.lineEnd pos + 1 := by
    have := page.le_lineEnd pos
    omega
  have hstands := page.stands_fileItem pos
  rw [outsideStep]
  generalize page.fileItem pos = item at hstands ⊢
  cases hstands with
  | blank hblank => exact .blank hblank
  | constant hcode => exact .constant hcode
  | directive hcode hline hdefine => exact .ignored hdefine
  | head hcode hline hhead => exact .opens hline hhead
  | scope hcode hline => exact .passed hline hnext
  | @block hcode hline hhead offset =>
      dsimp only
      split
      · exact .passed hline (Nat.min_le_right _ _)
      · rename_i close hmatch
        obtain ⟨hlt, -⟩ := matchingAt?_eq_some hmatch
        have hafter := page.le_afterStatement (close + 1)
        exact .passed hline (by dsimp only; omega)
  | code hcode hline => exact .passed hline hnext

/-! ### The end of a type -/

/-- A type as it is finished under a name. -/
def OpenType.finished (o : OpenType) (name : Text) : TypeDecl :=
  { o.decl with name := name, methods := o.decl.methods.map (ownedMethod name) }

/-- A name that an open type can be finished under: its own, or the one behind its closing brace. -/
def OpenType.IsName (page : Page) (o : OpenType) (name : Text) : Prop :=
  name = o.decl.name ∨
    ∃ stop, o.isTypedef = true ∧ closeTail.readAt page.masked (o.bodyEnd + 1) = some (name, stop)

/-- **What finishing a type leaves**: no open type, and one more finished type unless the type has
no name. -/
theorem finishType_eq (page : Page) (s : HeaderScan) {o : OpenType} {closingName : Text}
    (hname : closingName = [] ∨ o.IsName page closingName) :
    (finishType s o closingName).constants = s.constants ∧
    (finishType s o closingName).current = none ∧
    ((finishType s o closingName).types = s.types ∨
      ∃ name, o.IsName page name ∧ (finishType s o closingName).types
        = s.types ++ [o.finished name]) := by
  have hname' : o.IsName page (if closingName.isEmpty then o.decl.name else closingName) := by
    rcases hname with rfl | hname
    · exact Or.inl rfl
    · split
      · exact Or.inl rfl
      · exact hname
  rw [finishType]
  revert hname'
  generalize (if closingName.isEmpty then o.decl.name else closingName) = name
  intro hname'
  dsimp only
  split
  · exact ⟨rfl, rfl, Or.inl rfl⟩
  · exact ⟨rfl, rfl, Or.inr ⟨name, hname', rfl⟩⟩

/-- **What the closing brace does**: it finishes the type, perhaps under the name that follows it,
and leads behind itself. -/
theorem closeType_spec (page : Page) (s : HeaderScan) (o : OpenType) :
    ∃ closingName, (closingName = [] ∨ o.IsName page closingName) ∧
      (closeType page s o).1 = finishType s o closingName ∧
      min (o.bodyEnd + 1) page.text.length ≤ (closeType page s o).2 := by
  rw [closeType]
  split
  · rename_i name stop hread
    have hlt := closeTail_stop hread
    have hafter := page.le_afterStatement stop
    refine ⟨_, ?_, rfl, by dsimp only; omega⟩
    split
    · rename_i htypedef
      exact Or.inr (Or.inr ⟨stop, htypedef, hread⟩)
    · exact Or.inl rfl
  · exact ⟨[], Or.inl rfl, rfl, page.le_afterStatement (o.bodyEnd + 1)⟩

end Sharpen
