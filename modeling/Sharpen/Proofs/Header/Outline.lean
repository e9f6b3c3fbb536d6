import Mathlib.Data.List.DropRight
import Sharpen.Proofs.Header.Advance
import Sharpen.Proofs.Header.NextCode

/-!
# Outlines of Types

The outline of a type is its structure: name, kind and bases, the names of its members and methods
with their visibility, and the places of its methods. This module shows what each step of reading a
header does to the outlines. Nearly all of it is decided by the masked copy; what is read from the
text itself is that a line is a directive, that a block belongs to the file, and the name of a
member.

An outline is put together from outlines of steps: what a step sees is a small value, and the
outline behind the step is a function of the outline before it, of the masked copy and of what is
seen. That function does not use the text. So two readings that see the same make the same outlines,
which is what the comparison of two texts rests on.

## Main definitions

* `TypeDecl.outline` — the outline of a type.
* `Page.construct` — what stands at a place of a body, by the masked copy alone.
* `Page.seenOutside`, `Page.seenInside` — what is read from the text itself.
* `Outline` — what makes the structure of a type.
* `OpenOutline` — what makes the structure of a type whose body is being read.

## Main results

* `outsideStep_outline`, `insideStep_code`, `insideStep_rest` — what a step makes of the outlines.
-/

namespace Sharpen

/-! ### Outlines -/

/-- What makes the structure of a type. -/
structure Outline where
  name : Text
  kind : TypeKind
  bases : List Text
  members : List (Text × Visibility)
  methods : List (Text × Visibility × Nat)
deriving DecidableEq

/-- The outline of a type: its members with their visibility, its methods also with the places where
they are declared. -/
def TypeDecl.outline (d : TypeDecl) : Outline where
  name := d.name
  kind := d.kind
  bases := d.bases
  members := d.members.map fun m => (m.name, m.visibility)
  methods := d.methods.map fun m => (m.name, m.visibility, m.position)

/-- What makes the structure of a type whose body is being read. -/
structure OpenOutline where
  type : Outline
  bodyEnd : Nat
  isTypedef : Bool
  visibility : Visibility
deriving DecidableEq

/-- The outline of an open type. -/
def OpenType.outline (o : OpenType) : OpenOutline :=
  ⟨o.decl.outline, o.bodyEnd, o.isTypedef, o.visibility⟩

/-- The outlines of all types that have been read, and of the open one. -/
def HeaderScan.outline (s : HeaderScan) : List Outline × Option OpenOutline :=
  (s.types.map TypeDecl.outline, s.current.map OpenType.outline)

/-! ### Constructs of a body -/

/-- The construct whose code starts at `start`, in the body of the type `name` that ends at
`limit`. -/
def Page.construct (page : Page) (name : Text) (limit start : Nat) : Construct :=
  let lineEnd := page.lineEndWithin start limit
  page.constructAt name limit start (nextLine lineEnd limit)
    (Text.trim (page.masked.slice start lineEnd))

/-! ### What is read from the text itself -/

/-- What a step sees in the text itself, where the masked copy does not decide. -/
inductive Seen where
  /-- A directive. -/
  | directive
  /-- The start of a block whose contents belong to the file. -/
  | scope
  /-- The declaration of a member. -/
  | member (name : Text)
  /-- Nothing of these. -/
  | nothing
deriving DecidableEq

namespace Seen

/-- The declaration of a member, if a name is read from it. -/
def ofName? : Option Text → Seen
  | some name => .member name
  | none => .nothing

/-- The name of the member that is seen. -/
def name? : Seen → Option Text
  | .member name => some name
  | _ => none

/-- A name is seen as it is, and so is its absence. -/
@[simp]
theorem name?_ofName? (name : Option Text) : (ofName? name).name? = name := by
  cases name <;> rfl

/-- What is seen of a name is no directive. -/
theorem ofName?_ne_directive (name : Option Text) : ofName? name ≠ .directive := by
  cases name <;> simp [ofName?]

end Seen

/-- The name of the member that is declared from `start` to the given semicolon, if the declaration
can be read. -/
def Page.memberName? (page : Page) (start semicolon : Nat) : Option Text :=
  (memberParts? (memberCode (page.text.slice start (semicolon + 1)))).map MemberParts.name

/-- What a step sees in the text outside types, where this makes a difference. -/
def Page.seenOutside (page : Page) (pos : Nat) : Seen :=
  let segment : Text := page.text.slice pos (page.lineEnd pos)
  let masked : Text := page.masked.slice pos (page.lineEnd pos)
  let head := typeHead? page pos
  if head.isNone && !masked.contains '\x7b' then .nothing
  else if segment.trim.startsWith "#" then .directive
  else if head.isNone && (scopeOpening.read segment).isSome then .scope
  else .nothing

/-- What a step sees in the text of a body, where this makes a difference. -/
def Page.seenInside (page : Page) (o : OpenType) (pos : Nat) : Seen :=
  let lineEnd := page.lineEndWithin pos o.bodyEnd
  if isStatementRest (page.masked.slice pos lineEnd) then .nothing
  else if (Text.trim (page.text.slice pos lineEnd)).startsWith "#" then .directive
  else
    let start := page.codeStart pos o.bodyEnd
    match page.construct o.decl.name o.bodyEnd start with
    | .member semicolon => .ofName? (page.memberName? start semicolon)
    | _ => .nothing

/-! ### Steps by the masked copy -/

/-- The method that a declaration gives, in outline. -/
def MethodReading.outline : MethodReading → List (Text × Visibility × Nat)
  | .method m => [(m.name, m.visibility, m.position)]
  | _ => []

/-- The masked copy shows where the head of a method ends. -/
theorem methodTail_eq (masked text text' : Text) :
    (methodTail masked text).head = (methodTail masked text').head ∧
      (methodTail masked text).brace = (methodTail masked text').brace := by
  rw [methodTail, methodTail]
  split
  · exact ⟨rfl, rfl⟩
  · dsimp only
    split <;> exact ⟨rfl, rfl⟩

/-- The masked copy shows all that the outline has of a method. -/
theorem outline_methodDecl (stem stem' owner : Text) (visibility : Visibility) (position : Nat)
    (masked text text' : Text) :
    (methodDecl stem owner visibility position masked text).outline
      = (methodDecl stem' owner visibility position masked text').outline := by
  simp only [methodDecl]
  split
  · rfl
  rename_i closing hclosing
  obtain ⟨hhead, hbrace⟩ := methodTail_eq (masked.drop (closing + 1)) (text.drop (closing + 1))
    (text'.drop (closing + 1))
  rw [hhead, hbrace]
  split
  · rfl
  split
  · rfl
  split
  · rfl
  split
  · rfl
  split
  · rfl
  split
  · rfl
  · split <;> rfl

/-- What comes of an open type by the construct whose code starts at `start`. -/
def Page.outlineInside (page : Page) (o : OpenOutline) (start : Nat) (seen : Seen) : OpenOutline :=
  if seen = .directive then o
  else
    match page.construct o.type.name o.bodyEnd start with
    | .label visibility _ => { o with visibility := visibility }
    | .passed _ _ => o
    | .method stop =>
      let masked := page.masked.slice start stop
      { o with type.methods := o.type.methods ++
          (methodDecl [] o.type.name o.visibility start masked masked).outline }
    | .member _ =>
      { o with type.members := o.type.members ++ seen.name?.toList.map fun n => (n, o.visibility) }

/-- Where the reading goes on behind that construct, but for blanks. -/
def Page.placeInside (page : Page) (o : OpenOutline) (start : Nat) (seen : Seen) : Nat :=
  if seen = .directive then nextLine (page.lineEndWithin start o.bodyEnd) o.bodyEnd
  else
    match page.construct o.type.name o.bodyEnd start with
    | .label _ stop => stop
    | .passed _ next => next
    | .method stop => stop
    | .member semicolon => semicolon + 1

/-! ### Inside a type -/

/-- How the construct at `start` is taken. -/
def Construct.Taken (page : Page) (s : HeaderScan) (o : OpenType) (start line : Nat) :
    Construct → HeaderScan × Nat → Prop
  | .label visibility stop, r =>
      r = ({ s with current := some { o with visibility := visibility } }, stop)
  | .passed _ next, r => (∃ notices, r.1 = { s with notices := notices }) ∧ r.2 = next
  | .method stop, r =>
      r = (methodStep page s o start stop line, page.afterStatementWithin stop o.bodyEnd)
  | .member semicolon, r =>
      r = ((memberStep page s o start semicolon line).1,
        page.afterStatementWithin (trailingComment page (semicolon + 1)).stop o.bodyEnd)

section

variable {page : Page} {s : HeaderScan} {o : OpenType} {pos : Nat}

/-- The code of a line starts the same construct, whether the line is looked at from there or from a
place before it. -/
theorem Page.construct_codeStart (hmask : page.masked = maskCode page.text) {limit : Nat}
    (hpos : pos ≤ limit) (hlimit : limit ≤ page.masked.length)
    (hcode : Text.isBlank (page.masked.slice pos (page.lineEndWithin pos limit)) = false)
    (name : Text) :
    page.construct name limit (page.codeStart pos limit)
      = page.constructAt name limit (page.bodyLine limit pos).start (page.bodyLine limit pos).next
        (page.bodyLine limit pos).code := by
  obtain ⟨-, -, hend, htrim⟩ := Page.codeStart_spec hmask hpos hlimit hcode
  rw [construct, hend, htrim]
  rfl

/-- A step at code that starts no directive takes the construct there. -/
theorem insideStep_taken (hmask : page.masked = maskCode page.text) (hpos : pos ≤ o.bodyEnd)
    (hlimit : o.bodyEnd ≤ page.masked.length)
    (hcode : Text.isBlank (page.masked.slice pos (page.lineEndWithin pos o.bodyEnd)) = false)
    (hline : Text.startsWith
      (Text.trim (page.text.slice pos (page.lineEndWithin pos o.bodyEnd))) "#" = false) :
    (page.construct o.decl.name o.bodyEnd (page.codeStart pos o.bodyEnd)).Taken page s o
      (page.codeStart pos o.bodyEnd) (page.lineOf pos) (insideStep page s o pos) := by
  rw [insideStep_construct hcode hline, ← Page.construct_codeStart hmask hpos hlimit hcode]
  cases page.construct o.decl.name o.bodyEnd (page.codeStart pos o.bodyEnd) with
  | label => rfl
  | passed reason next => exact ⟨reportPassed_eq _ _ _ _, rfl⟩
  | method => rfl
  | member semicolon =>
      rw [Construct.Taken, ← memberStep_snd]
      rfl

/-- Attaching the end of a region leaves the outline. -/
theorem outline_endRegion (o : OpenType) (marker : Text) :
    (o.endRegion marker).outline = o.outline := by
  rw [OpenType.endRegion]
  split
  · rfl
  · simp only [OpenType.outline, TypeDecl.outline, modifyLast]
    rw [map_modify_eq ?_]
    exact fun _ => rfl
  · simp only [OpenType.outline, TypeDecl.outline, modifyLast]
    rw [map_modify_eq ?_]
    exact fun _ => rfl

/-- A directive leaves the outline. -/
theorem outline_directive (hs : s.current = some o) (line : Text) (lineNumber pos : Nat) :
    (directive page s o line lineNumber pos).outline = s.outline := by
  simp only [HeaderScan.outline, hs]
  rw [directive]
  split
  · rfl
  · simp only [Option.map_some, outline_endRegion]
  · split
    · rfl
    · simp only [HeaderScan.report, hs]

/-- A step at a directive leaves the outline and leads to the next line. -/
theorem outline_insideStep_directive (hs : s.current = some o)
    (hcode : Text.isBlank (page.masked.slice pos (page.lineEndWithin pos o.bodyEnd)) = false)
    (hline : Text.startsWith
      (Text.trim (page.text.slice pos (page.lineEndWithin pos o.bodyEnd))) "#" = true) :
    (insideStep page s o pos).1.outline = s.outline ∧
      (insideStep page s o pos).2 = nextLine (page.lineEndWithin pos o.bodyEnd) o.bodyEnd := by
  rw [insideStep_directive hcode hline]
  exact ⟨outline_directive hs _ _ _, rfl⟩

/-- A method declaration adds its method to the outline. -/
theorem outline_methodStep (hs : s.current = some o) (start stop line : Nat) :
    (methodStep page s o start stop line).outline = (s.outline.1, some
      { o.outline with type.methods := o.outline.type.methods ++
          (methodDecl [] o.decl.name o.visibility start (page.masked.slice start stop)
            (page.masked.slice start stop)).outline }) := by
  rw [← outline_methodDecl page.stem [] _ _ _ _ (page.text.slice start stop), methodStep]
  split
  · rename_i heq
    simp [HeaderScan.outline, hs, heq, MethodReading.outline, OpenType.outline]
  · rename_i heq
    simp [HeaderScan.outline, HeaderScan.report, hs, heq, MethodReading.outline, OpenType.outline]
  · rename_i m heq
    simp [HeaderScan.outline, HeaderScan.takeComments, heq, MethodReading.outline,
      OpenType.outline, TypeDecl.outline, OpenType.addMethod]

/-- A member declaration adds its member to the outline, if a name can be read. -/
theorem outline_memberStep (hs : s.current = some o) (start semicolon line : Nat) :
    (memberStep page s o start semicolon line).1.outline = (s.outline.1, some
      { o.outline with type.members := o.outline.type.members ++
          ((page.memberName? start semicolon).map fun name => (name, o.visibility)).toList }) := by
  simp only [memberStep, memberDecl?, Page.memberName?]
  cases memberParts? (memberCode (page.text.slice start (semicolon + 1))) with
  | none => simp [HeaderScan.outline, HeaderScan.report, hs, OpenType.outline]
  | some parts =>
      simp [HeaderScan.outline, HeaderScan.takeComments, OpenType.outline, TypeDecl.outline,
        OpenType.addMember]

/-- A member declaration ends with the first semicolon of the code. -/
theorem findChar?_of_construct_eq_member {name : Text} {limit start semicolon : Nat}
    (h : page.construct name limit start = .member semicolon) :
    Text.findChar? page.masked ';' start = some semicolon := by
  have hends := page.ends_constructAt name limit start
    (nextLine (page.lineEndWithin start limit) limit)
    (Text.trim (page.masked.slice start (page.lineEndWithin start limit)))
  rw [show page.constructAt _ _ _ _ _ = .member semicolon from h] at hends
  cases hends with
  | member hfind => exact hfind

/-- A member ends with a semicolon. -/
theorem construct_eq_member {name : Text} {limit start semicolon : Nat}
    (h : page.construct name limit start = .member semicolon) :
    page.masked[semicolon]? = some ';' :=
  (Text.findChar?_eq_some (findChar?_of_construct_eq_member h)).2

/-- Going on behind a member and its comment leaves the code behind the member. -/
theorem nextCode_trailingComment (hmask : page.masked = maskCode page.text) {limit semicolon : Nat}
    (hlimit : limit ≤ page.masked.length) (h : page.masked[semicolon]? = some ';') :
    nextCode (page.masked.slice
        (page.afterStatementWithin (trailingComment page (semicolon + 1)).stop limit) limit)
      = nextCode (page.masked.slice (semicolon + 1) limit) := by
  have hin : semicolon + 1 ≤ page.text.length :=
    Page.length_masked hmask ▸ (List.getElem?_eq_some_iff.mp h).1
  have hstop := page.le_stop_trailingComment (semicolon + 1)
  rw [nextCode_afterStatementWithin hmask hlimit]
  exact nextCode_slice_of_isBlank (by omega) (Page.isBlank_trailingComment hmask h)

/-- A step at code: what comes of the outline, and where it leads to. -/
theorem insideStep_code (hs : s.current = some o) (hmask : page.masked = maskCode page.text)
    (hpos : pos ≤ o.bodyEnd) (hlimit : o.bodyEnd ≤ page.masked.length)
    (hcode : isStatementRest (page.masked.slice pos (page.lineEndWithin pos o.bodyEnd)) = false) :
    (insideStep page s o pos).1.outline = (s.outline.1, some (page.outlineInside o.outline
      (page.codeStart pos o.bodyEnd) (page.seenInside o pos))) ∧
    nextCode (page.masked.slice (insideStep page s o pos).2 o.bodyEnd)
      = nextCode (page.masked.slice (page.placeInside o.outline (page.codeStart pos o.bodyEnd)
          (page.seenInside o pos)) o.bodyEnd) := by
  have hblank := isBlank_eq_false hcode
  obtain ⟨-, -, hend, -⟩ := Page.codeStart_spec hmask hpos hlimit hblank
  have hcurrent : some o.outline = s.outline.2 := by simp [HeaderScan.outline, hs]
  by_cases hline : Text.startsWith
      (Text.trim (page.text.slice pos (page.lineEndWithin pos o.bodyEnd))) "#" = true
  · have hseen : page.seenInside o pos = .directive := by
      simp only [Page.seenInside, hcode, hline, if_true, Bool.false_eq_true, if_false]
    obtain ⟨houtline, hnext⟩ := outline_insideStep_directive hs hblank hline
    simp only [houtline, hnext, hseen, Page.outlineInside, Page.placeInside, if_true, hcurrent,
      true_and]
    rw [show o.outline.bodyEnd = o.bodyEnd from rfl, hend]
  · rw [Bool.not_eq_true] at hline
    have htaken := insideStep_taken (s := s) hmask hpos hlimit hblank hline
    have hconstruct : page.construct o.outline.type.name o.outline.bodyEnd
        (page.codeStart pos o.bodyEnd)
        = page.construct o.decl.name o.bodyEnd (page.codeStart pos o.bodyEnd) := rfl
    simp only [Page.outlineInside, Page.placeInside, Page.seenInside, hcode, hline,
      Bool.false_eq_true, if_false, hconstruct]
    cases hcon : page.construct o.decl.name o.bodyEnd (page.codeStart pos o.bodyEnd) with
    | label visibility stop =>
        rw [hcon] at htaken
        rw [htaken]
        exact ⟨rfl, rfl⟩
    | passed next =>
        rw [hcon] at htaken
        obtain ⟨⟨notices, hnotices⟩, hnext⟩ := htaken
        rw [hnotices, hnext]
        exact ⟨congrArg (Prod.mk _) hcurrent.symm, rfl⟩
    | method stop =>
        rw [hcon] at htaken
        rw [htaken]
        exact ⟨outline_methodStep hs _ _ _, nextCode_afterStatementWithin hmask hlimit _⟩
    | member semicolon =>
        rw [hcon] at htaken
        rw [htaken, outline_memberStep hs,
          nextCode_trailingComment hmask hlimit (construct_eq_member hcon)]
        dsimp only
        rw [if_neg (Seen.ofName?_ne_directive _), if_neg (Seen.ofName?_ne_directive _),
          Seen.name?_ofName?]
        refine ⟨?_, rfl⟩
        cases page.memberName? (page.codeStart pos o.bodyEnd) semicolon with
        | none => rfl
        | some name => rfl

/-- What is left of a text that starts with a semicolon still does. -/
theorem trim_semicolon (t : Text) : ∃ u, Text.trim (';' :: t) = ';' :: u := by
  have hstart : Text.trimStart (';' :: t) = ';' :: t := rfl
  rw [Text.trim, hstart, Text.trimEnd, Text.dropEndWhile, List.reverse_cons, List.dropWhile_append]
  split
  · exact ⟨[], rfl⟩
  · exact ⟨_, List.reverse_append⟩

/-- A semicolon that starts a statement ends it: this is no declaration that can be read. -/
theorem construct_semicolon (name : Text) {limit start : Nat} {r : Text}
    (hmask : page.masked = maskCode page.text)
    (h : page.masked.slice start limit = ';' :: r) :
    page.construct name limit start = .member start ∧ page.memberName? start start = none := by
  have hstart : start < limit ∧ page.masked[start]? = some ';' := by
    have hget : (page.masked.slice start limit)[0]? = some ';' := by rw [h]; rfl
    rw [Text.slice, List.getElem?_drop, List.getElem?_take, Nat.add_zero] at hget
    split at hget
    · exact ⟨‹_›, hget⟩
    · cases hget
  have hsingle : ∀ {t : Text}, t[start]? = some ';' → t.slice start (start + 1) = [';'] := by
    intro t ht
    rw [Text.slice, List.drop_take, Nat.add_sub_cancel_left]
    obtain ⟨hlt, heq⟩ := List.getElem?_eq_some_iff.mp ht
    rw [List.drop_eq_getElem_cons hlt, heq]
    rfl
  have hcopy := hstart.2
  rw [hmask] at hcopy
  have htext := hsingle (maskFrom_semicolon hcopy).1
  have hstatement := hsingle hstart.2
  have hfind : (Text.findChar? page.masked ';' start).filter (· < limit) = some start := by
    obtain ⟨hlt, heq⟩ := List.getElem?_eq_some_iff.mp hstart.2
    rw [Text.findChar?, List.drop_eq_getElem_cons hlt, heq]
    simp [List.findIdx?_cons, hstart.1]
  have hend : page.statementEnd start limit = start := by
    rw [Page.statementEnd, h]
    simp [statementOffset?]
  obtain ⟨u, hu⟩ := trim_semicolon (Text.firstLine r)
  have hcode : Text.trim (page.masked.slice start (page.lineEndWithin start limit)) = ';' :: u := by
    rw [Page.slice_lineEndWithin hmask, h]
    exact hu
  constructor
  · simp only [Page.construct, Page.constructAt, hcode, hend, hstatement, hfind]
    rfl
  · rw [Page.memberName?, htext]
    decide +kernel

/-- A step at blanks and semicolons leaves the outline and comes no further than the next code. The
code of the line is a semicolon, which is a statement of its own and is dropped. -/
theorem insideStep_rest (hs : s.current = some o) (hmask : page.masked = maskCode page.text)
    (hpos : pos ≤ o.bodyEnd) (hlimit : o.bodyEnd ≤ page.masked.length)
    (hcode : isStatementRest (page.masked.slice pos (page.lineEndWithin pos o.bodyEnd)) = true) :
    (insideStep page s o pos).1.outline = s.outline ∧
      nextCode (page.masked.slice (insideStep page s o pos).2 o.bodyEnd)
        = nextCode (page.masked.slice pos o.bodyEnd) := by
  have hnext := nextCode_nextLine hmask hlimit hcode
  by_cases hblank : Text.isBlank (page.masked.slice pos (page.lineEndWithin pos o.bodyEnd)) = true
  · rw [insideStep_blank hblank]
    exact ⟨rfl, hnext⟩
  rw [Bool.not_eq_true] at hblank
  by_cases hline : Text.startsWith
      (Text.trim (page.text.slice pos (page.lineEndWithin pos o.bodyEnd))) "#" = true
  · obtain ⟨houtline, hstep⟩ := outline_insideStep_directive hs hblank hline
    rw [houtline, hstep]
    exact ⟨rfl, hnext⟩
  rw [Bool.not_eq_true] at hline
  obtain ⟨hslice, -, -, -⟩ := Page.codeStart_spec hmask hpos hlimit hblank
  obtain ⟨r, hr⟩ := trimStart_eq_semicolon (Page.slice_lineEndWithin hmask pos o.bodyEnd ▸ hcode)
    (Page.slice_lineEndWithin hmask pos o.bodyEnd ▸ hblank)
  rw [hr.1] at hslice
  obtain ⟨hconstruct, hname⟩ := construct_semicolon o.decl.name hmask hslice
  have htaken := insideStep_taken (s := s) hmask hpos hlimit hblank hline
  rw [hconstruct] at htaken
  rw [htaken, outline_memberStep hs, hname,
    nextCode_trailingComment hmask hlimit (construct_eq_member hconstruct), Text.slice_add, hslice,
    hr.2]
  exact ⟨by simp [HeaderScan.outline, hs, OpenType.outline], rfl⟩

end

/-! ### Outside types -/

/-- What comes of a step outside types, which may open a type, and where it leads to. -/
def Page.outlineOutside (page : Page) (pos : Nat) (seen : Seen) : Option OpenOutline × Nat :=
  let lineEnd := page.lineEnd pos
  let masked : Text := page.masked.slice pos lineEnd
  if masked.isBlank || seen = .directive then (none, lineEnd + 1)
  else
    match typeHead? page pos with
    | some head => ((openType page {} head 0).outline.2, head.brace + 1)
    | none =>
      match masked.findIdx? (· == '\x7b') with
      | some offset =>
        if seen = .scope then (none, lineEnd + 1)
        else
          match matchingAt? '\x7b' '\x7d' page.masked (pos + offset) with
          | none => (none, page.text.length)
          | some close => (none, page.afterStatement (close + 1))
      | none => (none, lineEnd + 1)

section

variable {page : Page} {s : HeaderScan} {o : OpenType} {pos : Nat}

/-- A character that is found is there. -/
theorem contains_of_findIdx? {t : Text} {c : Char} {i : Nat}
    (h : t.findIdx? (· == c) = some i) : t.contains c = true :=
  List.contains_iff_mem.mpr (List.mem_of_getElem? (getElem?_findIdx?_eq h))

/-- A directive outside types leads to the next line, whatever else is on its line. -/
theorem Page.outlineOutside_directive (page : Page) {pos : Nat}
    (hline : Text.startsWith (Text.trim (page.text.slice pos (page.lineEnd pos))) "#" = true) :
    page.outlineOutside pos (page.seenOutside pos) = (none, page.lineEnd pos + 1) := by
  cases hhead : typeHead? page pos with
  | some head =>
      have hseen : page.seenOutside pos = .directive := by
        simp only [Page.seenOutside, hhead, hline, Option.isNone_some, Bool.false_and,
          Bool.false_eq_true, if_false, if_true]
      simp [Page.outlineOutside, hseen]
  | none =>
      cases hbrace : List.findIdx? (· == '\x7b') (page.masked.slice pos (page.lineEnd pos)) with
      | none => simp [Page.outlineOutside, hhead, hbrace]
      | some offset =>
          have hmem := contains_of_findIdx? hbrace
          have hseen : page.seenOutside pos = .directive := by
            simp only [Page.seenOutside, hmem, hline, Bool.not_true, Bool.and_false,
              Bool.false_eq_true, if_false, if_true]
          simp [Page.outlineOutside, hseen]

/-- A step outside types: what comes of the outline, and where it leads to. -/
theorem outsideStep_outline (page : Page) (pos : Nat) (hs : s.current = none) :
    (outsideStep page s pos).1.outline
        = (s.outline.1, (page.outlineOutside pos (page.seenOutside pos)).1) ∧
      (outsideStep page s pos).2 = (page.outlineOutside pos (page.seenOutside pos)).2 := by
  have hnone : s.outline = (s.outline.1, none) := by simp [HeaderScan.outline, hs]
  have hstands := page.stands_fileItem pos
  rw [outsideStep]
  generalize page.fileItem pos = item at hstands ⊢
  cases hstands with
  | blank hblank =>
      simp only [Page.outlineOutside, hblank, if_true, Bool.true_or]
      exact ⟨hnone, rfl⟩
  | constant hcode hline | directive hcode hline =>
      rw [page.outlineOutside_directive hline]
      exact ⟨hnone, rfl⟩
  | head hcode hline hhead =>
      have hseen : page.seenOutside pos = .nothing := by
        simp only [Page.seenOutside, hhead, hline, Option.isNone_some, Bool.false_and,
          Bool.false_eq_true, if_false]
      simp only [Page.outlineOutside, hseen, hcode, hhead, reduceCtorEq, decide_false,
        Bool.or_false, Bool.false_eq_true, if_false]
      exact ⟨rfl, trivial⟩
  | scope hcode hline hhead hbrace hscope =>
      have hseen : page.seenOutside pos = .scope := by
        simp only [Page.seenOutside, hhead, hline, contains_of_findIdx? hbrace, hscope,
          Option.isNone_none, Bool.true_and, Bool.not_true, Bool.false_eq_true, if_false, if_true]
      simp only [Page.outlineOutside, hseen, hcode, hhead, hbrace, reduceCtorEq, decide_false,
        Bool.or_false, Bool.false_eq_true, if_false, if_true]
      exact ⟨hnone, rfl⟩
  | @block hcode hline hhead offset hbrace hscope =>
      have hseen : page.seenOutside pos = .nothing := by
        simp only [Page.seenOutside, hhead, hline, contains_of_findIdx? hbrace, hscope,
          Option.isNone_none, Bool.true_and, Bool.not_true, Bool.false_eq_true, if_false]
      simp only [Page.outlineOutside, hseen, hcode, hhead, hbrace, reduceCtorEq, decide_false,
        Bool.or_false, Bool.false_eq_true, if_false]
      cases matchingAt? '\x7b' '\x7d' page.masked (pos + offset) with
      | none => exact ⟨hnone, rfl⟩
      | some close => exact ⟨hnone, rfl⟩
  | code hcode hline hhead hbrace =>
      have hne : page.seenOutside pos ≠ .directive := by
        intro hseen
        simp only [Page.seenOutside, hline, Bool.false_eq_true, if_false] at hseen
        split at hseen
        · cases hseen
        · split at hseen <;> cases hseen
      simp only [Page.outlineOutside, hne, hcode, hhead, hbrace, decide_false, Bool.or_false,
        Bool.false_eq_true, if_false]
      exact ⟨hnone, rfl⟩

/-- Finishing a type puts its outline behind the others. -/
theorem outline_finishType (s : HeaderScan) (o : OpenType) (closingName : Text) :
    (finishType s o closingName).outline
      = (s.outline.1 ++ (if closingName.isEmpty && o.outline.type.name.isEmpty then []
          else [{ o.outline.type with
            name := if closingName.isEmpty then o.outline.type.name else closingName }]),
        none) := by
  have hname : o.outline.type.name = o.decl.name := rfl
  simp only [finishType, hname]
  cases hclosing : closingName.isEmpty with
  | true =>
      cases hown : o.decl.name.isEmpty with
      | true => simp [HeaderScan.outline, HeaderScan.report, hown]
      | false =>
          simp [HeaderScan.outline, hown, TypeDecl.outline, OpenType.outline, ownedMethod,
            Function.comp_def]
  | false =>
      simp [HeaderScan.outline, hclosing, TypeDecl.outline, OpenType.outline, ownedMethod,
        Function.comp_def]

end

end Sharpen
