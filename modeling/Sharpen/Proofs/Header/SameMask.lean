import Mathlib.Data.List.DropRight
import Mathlib.Data.List.Nodup
import Sharpen.Proofs.Header.Outline

/-!
# Texts with the Same Masked Copy

Two header texts may differ only in what their comments and literals say. Then they have the same
masked copy, and are read alike except where a step goes by the text itself. This module shows that
there is no other place where comments and literals get into the structure: two readings that see
the same wherever they come to the same place give types with the same outlines. The readings need
not go step by step together, for a comment behind a member is passed over with it and blanks are
not; they are in step again at the next code.

Three things of a structure are read from the text and not from its masked copy: whether a line is a
directive, whether a block outside types belongs to the file, and the name of a member. What is read
there is the view of a step, and two readings are alike if their views are the same at all places
both come to. The statement is an equality of outlines, not of types, since comments and values may
of course differ.

## Main definitions

* `View` — what a step goes by; `Page.SeesAlike` compares the views of two readings.
* `Page.InStep` — the invariant: the readings have the same outline and are before the same code.
* `Page.Twins` — two pages with the same masked copy.
* `Page.placesFrom` — all that the reading of a page comes to from a place on: what has been read,
  and the position.
* `Page.places` — all that the reading of a page comes to.

## Main results

* `Page.InStep.step_outside`, `Page.InStep.step_inside`, `Page.InStep.step_closing` — what a step of
  both keeps of it; `Page.Reaches.settled` is where they wait for each other.
* `outlines_eq_of_seesAlike` — two texts with the same masked copy have the same outlines if they
  are seen alike.
* `not_forall_outlines_eq` — they may not be, for a comment in the declaration of a member.
-/

namespace Sharpen

/-! ### Two pages -/

/-- Two pages with the same masked copy. -/
structure Page.Twins (page page' : Page) : Prop where
  masked : page.masked = maskCode page.text
  masked' : page'.masked = maskCode page'.text
  same : page'.masked = page.masked

namespace Page.Twins

variable {page page' : Page} (h : page.Twins page')

include h

/-- Texts with one masked copy have one length. -/
theorem length_eq : page'.text.length = page.text.length := by
  rw [← length_maskCode, ← h.masked', h.same, h.masked, length_maskCode]

/-- Their lines end at the same places. -/
theorem lineEnd_eq : page'.lineEnd = page.lineEnd := by
  funext i
  rw [lineEnd_eq_masked h.masked', h.same, ← lineEnd_eq_masked h.masked]

/-- So do they within a body. -/
theorem lineEndWithin_eq : page'.lineEndWithin = page.lineEndWithin := by
  funext i limit
  rw [lineEndWithin, lineEndWithin, h.lineEnd_eq]

/-- Behind a statement, both go on at the same place. -/
theorem afterStatementWithin_eq : page'.afterStatementWithin = page.afterStatementWithin := by
  funext i limit
  rw [afterStatementWithin, afterStatementWithin, h.lineEndWithin_eq, h.same]

/-- A statement ends at the same place in both. -/
theorem statementEnd_eq : page'.statementEnd = page.statementEnd := by
  funext i limit
  rw [statementEnd, statementEnd, h.same]

/-- The same construct starts at a place of either. -/
theorem construct_eq : page'.construct = page.construct := by
  funext name limit start
  rw [construct, construct, constructAt, constructAt, h.lineEndWithin_eq,
    h.afterStatementWithin_eq, h.statementEnd_eq, h.same]

/-- The code starts at the same place. -/
theorem codeStart_eq : page'.codeStart = page.codeStart := by
  funext pos limit
  rw [codeStart, codeStart, h.lineEndWithin_eq, h.same]

/-- Inside a body, both show the same outline. -/
theorem outlineInside_eq : page'.outlineInside = page.outlineInside := by
  funext o start seen
  simp only [outlineInside, h.construct_eq, h.same]

/-- And both are at the same place of it. -/
theorem placeInside_eq : page'.placeInside = page.placeInside := by
  funext o start seen
  simp only [placeInside, h.construct_eq, h.lineEndWithin_eq]

/-- Outside bodies, both show the same outline too. -/
theorem outlineOutside_eq : page'.outlineOutside = page.outlineOutside := by
  funext pos seen
  have hhead : typeHead? page' pos = typeHead? page pos := by
    simp only [typeHead?, h.same]
  have hopen : ∀ head,
      (openType page' {} head 0).outline.2 = (openType page {} head 0).outline.2 := by
    intro head
    simp only [openType, HeaderScan.takeComments, HeaderScan.outline, h.same, h.length_eq]
    rfl
  simp only [outlineOutside, afterStatement, hhead, hopen, h.same, h.lineEnd_eq, h.length_eq]

/-- Closing a type comes out alike. -/
theorem closeType_eq {s s' : HeaderScan} {o o' : OpenType} (hs : s'.outline = s.outline)
    (ho : o'.outline = o.outline) :
    (closeType page' s' o').1.outline = (closeType page s o).1.outline ∧
      (closeType page' s' o').2 = (closeType page s o).2 := by
  have hend : o'.bodyEnd = o.bodyEnd := congrArg OpenOutline.bodyEnd ho
  have htypedef : o'.isTypedef = o.isTypedef := congrArg OpenOutline.isTypedef ho
  have hafter : page'.afterStatement = page.afterStatement := by
    funext i
    rw [afterStatement, afterStatement, h.lineEnd_eq, h.same]
  simp only [closeType, hend, htypedef, h.same, hafter]
  split
  · exact ⟨by rw [outline_finishType, outline_finishType, hs, ho], rfl⟩
  · exact ⟨by rw [outline_finishType, outline_finishType, hs, ho], rfl⟩

end Page.Twins

/-- Finishing a type without closing brace goes by the outline. -/
theorem outline_finishOpenType {s s' : HeaderScan} (h : s'.outline = s.outline) :
    (finishOpenType s').outline = (finishOpenType s).outline := by
  have hcurrent : s'.current.map OpenType.outline = s.current.map OpenType.outline :=
    congrArg Prod.snd h
  simp only [finishOpenType]
  cases hs : s.current with
  | none =>
      rw [hs, Option.map_none, Option.map_eq_none_iff] at hcurrent
      rw [hcurrent]
      exact h
  | some o =>
      rw [hs, Option.map_some, Option.map_eq_some_iff] at hcurrent
      obtain ⟨o', hs', ho⟩ := hcurrent
      rw [hs']
      dsimp only
      rw [outline_finishType, outline_finishType, ho]
      exact congrArg (fun types => (types ++ _, none)) (congrArg Prod.fst h)

/-! ### Two readings -/

/-- All that the reading of a page comes to from a place on: what has been read, and the
position. -/
def Page.placesFrom (page : Page) (s : HeaderScan) (pos : Nat) : List (HeaderScan × Nat) :=
  if pos < page.text.length then
    let (s', next) := headerStep page s pos
    if pos < next then (s, pos) :: page.placesFrom s' next else [(s, pos)]
  else [(s, pos)]
termination_by page.text.length - pos

/-- All that the reading of a page comes to. -/
def Page.places (page : Page) : List (HeaderScan × Nat) :=
  page.placesFrom page.firstScan 0

/-- What a step sees in the text itself, where this makes a difference. -/
def Page.seen (page : Page) (s : HeaderScan) (pos : Nat) : Seen :=
  match s.current with
  | none => page.seenOutside pos
  | some o => page.seenInside o pos

/-- The place a step is at: its position outside types, and where the code of its line starts in the
body of a type. -/
def Page.placeOf (page : Page) (s : HeaderScan) (pos : Nat) : Nat :=
  match s.current with
  | none => pos
  | some o => page.codeStart pos o.bodyEnd

/-- What a step goes by: the outlines so far, the place it is at and what it sees in the text. -/
structure View where
  outline : List Outline × Option OpenOutline
  place : Nat
  seen : Seen
deriving DecidableEq

/-- What all the steps of reading a page go by. -/
def Page.views (page : Page) : List View :=
  page.places.map fun p => ⟨p.1.outline, page.placeOf p.1 p.2, page.seen p.1 p.2⟩

/-- **Two readings see the same** wherever they have come to the same outlines and the same
place. -/
def Page.SeesAlike (page page' : Page) : Prop :=
  ∀ v ∈ page.views, ∀ v' ∈ page'.views,
    v'.outline = v.outline → v'.place = v.place → v'.seen = v.seen

section

variable {page : Page} {s : HeaderScan} {pos : Nat}

/-- The reading comes to where it starts. -/
theorem Page.mem_placesFrom_self : (s, pos) ∈ page.placesFrom s pos := by
  rw [Page.placesFrom]
  split
  · dsimp only
    split <;> simp
  · simp

/-- What the reading comes to includes what one more step leads to. -/
theorem Page.mem_placesFrom_step {s₀ : HeaderScan} {pos₀ : Nat}
    (h : (s, pos) ∈ page.placesFrom s₀ pos₀) (hpos : pos < page.text.length)
    (hlt : pos < (headerStep page s pos).2) :
    headerStep page s pos ∈ page.placesFrom s₀ pos₀ := by
  fun_induction Page.placesFrom page s₀ pos₀ with
  | case1 s₀ pos₀ hpos₀ s' next hstep hlt₀ ih =>
      rcases List.mem_cons.mp h with heq | hmem
      · obtain ⟨rfl, rfl⟩ := Prod.mk.inj heq
        rw [hstep]
        exact List.mem_cons_of_mem _ Page.mem_placesFrom_self
      · exact List.mem_cons_of_mem _ (ih hmem)
  | case2 s₀ pos₀ hpos₀ s' next hstep hlt₀ =>
      obtain ⟨rfl, rfl⟩ := Prod.mk.inj (List.mem_singleton.mp h)
      rw [hstep] at hlt
      exact absurd hlt hlt₀
  | case3 s₀ pos₀ hpos₀ =>
      obtain ⟨rfl, rfl⟩ := Prod.mk.inj (List.mem_singleton.mp h)
      exact absurd hpos hpos₀

/-- All that the reading reaches is among its places. -/
theorem Page.Reaches.mem_places (h : page.Reaches s pos)
    (hpage : page.masked.length = page.text.length) : (s, pos) ∈ page.places := by
  induction h with
  | start => exact Page.mem_placesFrom_self
  | step hreach hpos ih =>
      exact Page.mem_placesFrom_step ih hpos ((hreach.placedAt hpage).step hpage hpos).1

/-- Two readings that see the same do so wherever they have come to the same place. -/
theorem Page.SeesAlike.seen_eq {page' : Page} {s' : HeaderScan} {pos' : Nat}
    (halike : page.SeesAlike page') (h : page.Twins page') (hreach : page.Reaches s pos)
    (hreach' : page'.Reaches s' pos') (houtline : s'.outline = s.outline)
    (hplace : page'.placeOf s' pos' = page.placeOf s pos) :
    page'.seen s' pos' = page.seen s pos :=
  halike _ (List.mem_map_of_mem (hreach.mem_places (Page.length_masked h.masked)))
    _ (List.mem_map_of_mem (hreach'.mem_places (Page.length_masked h.masked'))) houtline hplace

/-- Where the reading of a page ends. -/
theorem Page.Reaches.headerLoop_of_le (h : page.Reaches s pos)
    (hpage : page.masked.length = page.text.length) (hpos : page.text.length ≤ pos) :
    headerLoop page page.firstScan 0 = s := by
  rw [← h.headerLoop_eq hpage, headerLoop, if_neg (by omega)]

/-- A reading in the body of a type that has passed over blanks and semicolons: it has come from `s`
to `s₁` at position `pos₁`, where there is code or the body ends. -/
structure Page.Settled (page : Page) (s : HeaderScan) (pos limit : Nat) (s₁ : HeaderScan)
    (pos₁ : Nat) (o₁ : OpenType) : Prop where
  reaches : page.Reaches s₁ pos₁
  current : s₁.current = some o₁
  bodyEnd : o₁.bodyEnd = limit
  outline : s₁.outline = s.outline
  le : pos ≤ pos₁
  code : nextCode (page.masked.slice pos₁ limit) = nextCode (page.masked.slice pos limit)
  atCode : pos₁ = limit ∨
    isStatementRest (page.masked.slice pos₁ (page.lineEndWithin pos₁ limit)) = false

/-- A reading in the body of a type comes to the next code. -/
theorem Page.Reaches.settled (hmask : page.masked = maskCode page.text) {o : OpenType}
    (h : page.Reaches s pos) (hs : s.current = some o) :
    ∃ s₁ pos₁ o₁, page.Settled s pos o.bodyEnd s₁ pos₁ o₁ := by
  have hpage := Page.length_masked hmask
  obtain ⟨hopened, hle⟩ := h.placedAt hpage o hs
  have hlimit := hopened.bodyEnd_le hpage
  generalize hn : o.bodyEnd - pos = n
  induction n using Nat.strongRecOn generalizing s pos o with
  | ind n ih =>
      by_cases hend : pos = o.bodyEnd
      · exact ⟨s, pos, o, h, hs, rfl, rfl, Nat.le_refl _, rfl, Or.inl hend⟩
      by_cases hrest : isStatementRest (page.masked.slice pos
          (page.lineEndWithin pos o.bodyEnd)) = true
      · have hlt : pos < o.bodyEnd := by omega
        have hstep : headerStep page s pos = insideStep page s o pos := by
          simp only [headerStep, hs]
          rw [if_neg (by omega)]
        obtain ⟨houtline, hcode⟩ := insideStep_rest hs hmask hle (by omega) hrest
        obtain ⟨⟨o', hs', hend', -⟩, hnext, hnextLe⟩ := insideStep_advances hs hlimit hlt
        have hreach := hstep ▸ h.step (by omega)
        obtain ⟨hopened', hle'⟩ := hreach.placedAt hpage o' hs'
        obtain ⟨s₁, pos₁, o₁, hsettled⟩ := ih _ (by omega) hreach hs' hopened' hle'
          (hopened'.bodyEnd_le hpage) rfl
        rw [hend'] at hsettled
        exact ⟨s₁, pos₁, o₁, hsettled.reaches, hsettled.current, hsettled.bodyEnd,
          hsettled.outline.trans houtline, by have := hsettled.le; omega,
          hsettled.code.trans hcode, hsettled.atCode⟩
      · exact ⟨s, pos, o, h, hs, rfl, rfl, Nat.le_refl _, rfl,
          Or.inr (Bool.not_eq_true _ ▸ hrest)⟩

end

/-- **Two readings in step**: they have the same outline, and stand at the same place outside types
and before the same code in the body of a type. -/
structure Page.InStep (page : Page) (s : HeaderScan) (pos : Nat) (s' : HeaderScan) (pos' : Nat) :
    Prop where
  outline : s'.outline = s.outline
  outside : s.current = none → pos' = pos
  inside : ∀ o, s.current = some o →
    nextCode (page.masked.slice pos' o.bodyEnd) = nextCode (page.masked.slice pos o.bodyEnd)

section

variable {page page' : Page} {s s' : HeaderScan} {pos pos' : Nat}

/-- The open types of two readings with the same outline. -/
theorem exists_current {o : OpenType} (h : s'.outline = s.outline) (hs : s.current = some o) :
    ∃ o', s'.current = some o' ∧ o'.outline = o.outline := by
  have hcurrent : s'.current.map OpenType.outline = s.current.map OpenType.outline :=
    congrArg Prod.snd h
  rw [hs, Option.map_some] at hcurrent
  exact Option.map_eq_some_iff.mp hcurrent

/-- Two readings with the same outline are both outside types, or neither is. -/
theorem current_eq_none (h : s'.outline = s.outline) (hs : s.current = none) :
    s'.current = none := by
  have hcurrent : s'.current.map OpenType.outline = s.current.map OpenType.outline :=
    congrArg Prod.snd h
  rwa [hs, Option.map_none, Option.map_eq_none_iff] at hcurrent

/-- Two readings in step outside types take the same step. -/
theorem Page.InStep.step_outside (h : page.Twins page') (halike : page.SeesAlike page')
    (hstep : page.InStep s pos s' pos') (hreach : page.Reaches s pos)
    (hreach' : page'.Reaches s' pos') (hs : s.current = none) :
    page.InStep (headerStep page s pos).1 (headerStep page s pos).2
      (headerStep page' s' pos').1 (headerStep page' s' pos').2 := by
  obtain rfl := hstep.outside hs
  have hs' := current_eq_none hstep.outline hs
  have hseen : page'.seenOutside pos' = page.seenOutside pos' := by
    have hsame := halike.seen_eq h hreach hreach' hstep.outline
      (by simp only [Page.placeOf, hs, hs'])
    simpa only [Page.seen, hs, hs'] using hsame
  have heq : headerStep page s pos' = outsideStep page s pos' := by simp only [headerStep, hs]
  have heq' : headerStep page' s' pos' = outsideStep page' s' pos' := by simp only [headerStep, hs']
  obtain ⟨houtline, hnext⟩ := outsideStep_outline page pos' hs
  obtain ⟨houtline', hnext'⟩ := outsideStep_outline page' pos' hs'
  rw [heq, heq', hnext, hnext', hseen, h.outlineOutside_eq]
  refine ⟨?_, fun _ => rfl, fun _ _ => rfl⟩
  rw [houtline, houtline', hseen, h.outlineOutside_eq, hstep.outline]

/-- The next code of a body takes up what is left of it from the start of its code on. -/
theorem Page.codeStart_add_nextCode (page : Page) (hmask : page.masked = maskCode page.text)
    {i limit : Nat} (hi : i ≤ limit) (hlimit : limit ≤ page.masked.length)
    (hcode : isStatementRest (page.masked.slice i (page.lineEndWithin i limit)) = false) :
    page.codeStart i limit + (nextCode (page.masked.slice i limit)).length = limit := by
  have hcount := (Page.codeStart_spec hmask hi hlimit (isBlank_eq_false hcode)).2.1
  rw [Page.slice_lineEndWithin hmask] at hcode
  rwa [nextCode_eq_trimStart hcode]

/-- Two readings in step at the code of a body go on in step. The code starts in the same place of
both. -/
theorem Page.InStep.step_inside (h : page.Twins page') (halike : page.SeesAlike page')
    {o : OpenType} (hstep : page.InStep s pos s' pos') (hreach : page.Reaches s pos)
    (hreach' : page'.Reaches s' pos') (hs : s.current = some o)
    (hcode : isStatementRest (page.masked.slice pos (page.lineEndWithin pos o.bodyEnd)) = false)
    (hcode' : isStatementRest
      (page.masked.slice pos' (page.lineEndWithin pos' o.bodyEnd)) = false) :
    page.InStep (headerStep page s pos).1 (headerStep page s pos).2
      (headerStep page' s' pos').1 (headerStep page' s' pos').2 := by
  have hpage := Page.length_masked h.masked
  have hpos := page.lt_of_code hcode
  have hpos' := page.lt_of_code hcode'
  obtain ⟨o', hs', ho⟩ := exists_current hstep.outline hs
  have hend : o'.bodyEnd = o.bodyEnd := congrArg OpenOutline.bodyEnd ho
  have hlimit := ((hreach.placedAt hpage o hs).1).bodyEnd_le hpage
  have hstart : page'.codeStart pos' o.bodyEnd = page.codeStart pos o.bodyEnd := by
    have hcount := page.codeStart_add_nextCode h.masked (Nat.le_of_lt hpos) (by omega) hcode
    have hcount' := page.codeStart_add_nextCode h.masked (Nat.le_of_lt hpos') (by omega) hcode'
    rw [hstep.inside o hs] at hcount'
    rw [h.codeStart_eq]
    omega
  have hseen : page'.seenInside o' pos' = page.seenInside o pos := by
    have hsame := halike.seen_eq h hreach hreach' hstep.outline
      (by simp only [Page.placeOf, hs, hs', hend, hstart])
    simpa only [Page.seen, hs, hs'] using hsame
  have heq : headerStep page s pos = insideStep page s o pos := by
    simp only [headerStep, hs]
    rw [if_neg (by omega)]
  have heq' : headerStep page' s' pos' = insideStep page' s' o' pos' := by
    simp only [headerStep, hs']
    rw [if_neg (by omega)]
  obtain ⟨houtline, hnext⟩ := insideStep_code hs h.masked (Nat.le_of_lt hpos) (by omega) hcode
  obtain ⟨houtline', hnext'⟩ := insideStep_code hs' h.masked' (hend ▸ Nat.le_of_lt hpos')
    (by rw [h.same]; omega) (by rw [h.same, h.lineEndWithin_eq, hend]; exact hcode')
  rw [hend, hstart, hseen, h.outlineInside_eq, ho, hstep.outline, ← houtline] at houtline'
  rw [hend, hstart, hseen, h.placeInside_eq, ho, h.same, ← hnext] at hnext'
  obtain ⟨⟨o₁, hs₁, hend₁, -⟩, -, -⟩ := insideStep_advances hs hlimit hpos
  rw [heq, heq']
  refine ⟨houtline', fun hnone => ?_, fun o₂ hs₂ => ?_⟩
  · rw [hs₁] at hnone
    cases hnone
  · obtain rfl : o₁ = o₂ := Option.some.inj (hs₁.symm.trans hs₂)
    rw [hend₁]
    exact hnext'

/-- Two readings at the end of a body close it alike. -/
theorem Page.InStep.step_closing (h : page.Twins page') {o : OpenType}
    (hstep : page.InStep s pos s' pos') (hs : s.current = some o) (hpos : pos = o.bodyEnd)
    (hpos' : pos' = o.bodyEnd) (hlimit : o.bodyEnd < page.text.length) :
    page.InStep (headerStep page s pos).1 (headerStep page s pos).2
      (headerStep page' s' pos').1 (headerStep page' s' pos').2 := by
  obtain ⟨o', hs', ho⟩ := exists_current hstep.outline hs
  have hend : o'.bodyEnd = o.bodyEnd := congrArg OpenOutline.bodyEnd ho
  have heq : headerStep page s pos = closeType page s o := by
    simp only [headerStep, hs]
    rw [if_pos (by omega)]
  have heq' : headerStep page' s' pos' = closeType page' s' o' := by
    simp only [headerStep, hs']
    rw [if_pos (by omega)]
  obtain ⟨houtline, hnext⟩ := h.closeType_eq hstep.outline ho
  have hnone := (closeType_advances page s o hlimit).2
  rw [heq, heq']
  exact ⟨houtline, fun _ => hnext, fun o₁ hs₁ => by rw [hnone] at hs₁; cases hs₁⟩

/-- Two readings in step in a body are still in step when they have come to the next code. -/
theorem Page.Twins.settled_inStep {s₁ s₁' : HeaderScan} {pos₁ pos₁' : Nat}
    {o o₁ o₁' : OpenType} (h : page.Twins page') (hstep : page.InStep s pos s' pos')
    (hs : s.current = some o) (hsettled : page.Settled s pos o.bodyEnd s₁ pos₁ o₁)
    (hsettled' : page'.Settled s' pos' o.bodyEnd s₁' pos₁' o₁') :
    page.InStep s₁ pos₁ s₁' pos₁' := by
  refine ⟨hsettled'.outline.trans (hstep.outline.trans hsettled.outline.symm), fun hnone => ?_,
    fun o₂ hs₂ => ?_⟩
  · rw [hsettled.current] at hnone
    cases hnone
  · obtain rfl : o₁ = o₂ := Option.some.inj (hsettled.current.symm.trans hs₂)
    have hcode' := hsettled'.code
    rw [h.same] at hcode'
    rw [hsettled.bodyEnd, hcode', hstep.inside o hs, hsettled.code]

/-- Two readings that have come to the same next code are both at the end of the body, or both at
code. -/
theorem Page.Twins.settled_cases {limit : Nat} {s₁ s₁' : HeaderScan} {pos₁ pos₁' : Nat}
    {o₁ o₁' : OpenType} (h : page.Twins page') (hstep : page.InStep s₁ pos₁ s₁' pos₁')
    (hsettled : page.Settled s pos limit s₁ pos₁ o₁)
    (hsettled' : page'.Settled s' pos' limit s₁' pos₁' o₁') :
    (pos₁ = limit ∧ pos₁' = limit) ∨
      (isStatementRest (page.masked.slice pos₁ (page.lineEndWithin pos₁ limit)) = false ∧
        isStatementRest (page.masked.slice pos₁' (page.lineEndWithin pos₁' limit)) = false) := by
  have hcode := hstep.inside o₁ hsettled.current
  rw [hsettled.bodyEnd] at hcode
  have hend : nextCode (page.masked.slice limit limit) = [] := by
    rw [Text.slice_eq_nil (Nat.min_le_left _ _), nextCode]
  have hne : ∀ {i : Nat},
      isStatementRest (page.masked.slice i (page.lineEndWithin i limit)) = false →
      nextCode (page.masked.slice i limit) ≠ [] := by
    intro i hrest
    rw [Page.slice_lineEndWithin h.masked] at hrest
    rw [nextCode_eq_trimStart hrest]
    intro hnil
    refine absurd ?_ (Bool.eq_false_iff.mp (isBlank_eq_false hrest))
    exact List.all_eq_true.mpr fun c hc =>
      List.dropWhile_eq_nil_iff.mp hnil c ((List.takeWhile_sublist _).mem hc)
  have hat' := hsettled'.atCode
  rw [h.same, h.lineEndWithin_eq] at hat'
  rcases hsettled.atCode with rfl | hrest
  · rcases hat' with rfl | hrest'
    · exact Or.inl ⟨rfl, rfl⟩
    · exact absurd (hcode.trans hend) (hne hrest')
  · rcases hat' with rfl | hrest'
    · exact absurd (hcode.symm.trans hend) (hne hrest)
    · exact Or.inr ⟨hrest, hrest'⟩

/-- Two readings in step come to the same end. Both first come to the next code, or to the end of
the body. -/
theorem Page.InStep.outline_headerLoop (h : page.Twins page') (halike : page.SeesAlike page')
    (hstep : page.InStep s pos s' pos') (hreach : page.Reaches s pos)
    (hreach' : page'.Reaches s' pos') :
    (headerLoop page' page'.firstScan 0).outline = (headerLoop page page.firstScan 0).outline := by
  have hpage := Page.length_masked h.masked
  have hpage' := Page.length_masked h.masked'
  have hlength := h.length_eq
  generalize hn : page.text.length - pos = n
  induction n using Nat.strongRecOn generalizing s pos s' pos' with
  | ind n ih =>
      cases hs : s.current with
      | none =>
          obtain rfl := hstep.outside hs
          by_cases hpos : pos' < page.text.length
          · have hlt := ((hreach.placedAt hpage).step hpage hpos).1
            exact ih _ (by omega) (hstep.step_outside h halike hreach hreach' hs)
              (hreach.step hpos) (hreach'.step (by omega)) rfl
          · rw [hreach.headerLoop_of_le hpage (by omega),
              hreach'.headerLoop_of_le hpage' (by omega)]
            exact hstep.outline
      | some o =>
          obtain ⟨o', hs', ho⟩ := exists_current hstep.outline hs
          have hend : o'.bodyEnd = o.bodyEnd := congrArg OpenOutline.bodyEnd ho
          obtain ⟨s₁, pos₁, o₁, hsettled⟩ := hreach.settled h.masked hs
          obtain ⟨s₁', pos₁', o₁', hsettled'⟩ := hreach'.settled h.masked' hs'
          rw [hend] at hsettled'
          have hin := h.settled_inStep hstep hs hsettled hsettled'
          have hlimit := hsettled.bodyEnd ▸
            ((hsettled.reaches.placedAt hpage o₁ hsettled.current).1).bodyEnd_le hpage
          have hle := hsettled.le
          have hbody := hsettled.bodyEnd
          rcases h.settled_cases hin hsettled hsettled' with ⟨hpos, hpos'⟩ | ⟨hcode, hcode'⟩
          · by_cases hlt : o.bodyEnd < page.text.length
            · have hnext := ((hsettled.reaches.placedAt hpage).step hpage (by omega)).1
              exact ih _ (by omega) (hin.step_closing h hsettled.current (by omega) (by omega)
                  (by omega))
                (hsettled.reaches.step (by omega)) (hsettled'.reaches.step (by omega)) rfl
            · rw [hsettled.reaches.headerLoop_of_le hpage (by omega),
                hsettled'.reaches.headerLoop_of_le hpage' (by omega)]
              exact hin.outline
          · rw [← hsettled.bodyEnd] at hcode hcode' hlimit
            have hlt := page.lt_of_code hcode
            have hlt' := page.lt_of_code hcode'
            have hnext := ((hsettled.reaches.placedAt hpage).step hpage (by omega)).1
            exact ih _ (by omega) (hin.step_inside h halike hsettled.reaches hsettled'.reaches
                hsettled.current hcode hcode')
              (hsettled.reaches.step (by omega)) (hsettled'.reaches.step (by omega)) rfl

end

/-- The outlines of the types of a header. -/
def Header.outlines (h : Header) : List Outline :=
  h.types.map TypeDecl.outline

/-- **The structure of a header depends on its masked copy and on what is seen in its text**: two
texts with the same masked copy that are seen alike give the same types, with the same members and
methods in the same order. -/
theorem outlines_eq_of_seesAlike {text text' path : Text}
    (hmask : maskCode text.normalizeNewlines = maskCode text'.normalizeNewlines)
    (hseen : (Page.ofText text path).SeesAlike (Page.ofText text' path)) :
    (parseHeader text path).1.outlines = (parseHeader text' path).1.outlines := by
  have htwins : (Page.ofText text path).Twins (Page.ofText text' path) := ⟨rfl, rfl, hmask.symm⟩
  have hstart : (Page.ofText text path).InStep (Page.ofText text path).firstScan 0
      (Page.ofText text' path).firstScan 0 := ⟨rfl, fun _ => rfl, fun _ _ => rfl⟩
  have hloop := hstart.outline_headerLoop htwins hseen .start .start
  have hread : ∀ page : Page, (readHeader page).1.types.map TypeDecl.outline
      = (finishOpenType (headerLoop page page.firstScan 0)).outline.1 :=
    map_types_readHeader fun _ _ => rfl
  calc (readHeader (Page.ofText text path)).1.outlines
      = _ := hread _
    _ = _ := congrArg Prod.fst (outline_finishOpenType hloop).symm
    _ = (readHeader (Page.ofText text' path)).1.outlines := (hread _).symm

/-- Two readings that see the same at the same places, none of them twice, see the same. -/
theorem Page.seesAlike_of_map_eq {page page' : Page} {l : List (Nat × Seen)}
    (h : page.views.map (fun v => (v.place, v.seen)) = l)
    (h' : page'.views.map (fun v => (v.place, v.seen)) = l) (hplaces : (l.map Prod.fst).Nodup) :
    page.SeesAlike page' := by
  intro v hv v' hv' _ hplace
  have hmem : (v.place, v.seen) ∈ l := h ▸ List.mem_map_of_mem (f := fun v => (v.place, v.seen)) hv
  have hmem' : (v'.place, v'.seen) ∈ l :=
    h' ▸ List.mem_map_of_mem (f := fun v => (v.place, v.seen)) hv'
  exact congrArg Prod.snd (List.inj_on_of_nodup_map hplaces hmem' hmem hplace)

/-- A header with comments above and behind its members and a parenthesis in a literal. -/
def commentedText : Text :=
  "class A\x7b\n//a\nint x; /*b*/ int y;\nvoid f(char c='(');\n\x7d;"

/-- The same header with other comments, or blanks in their place, and another literal. -/
def uncommentedText : Text :=
  "class A\x7b\n   \nint x;       int y;\nvoid f(char c=')');\n\x7d;"

/-- A class with a comment in it, and the same with the comment blanked out, are seen alike and
outlined alike. -/
theorem outlines_commentedText :
    maskCode (Text.normalizeNewlines commentedText)
        = maskCode (Text.normalizeNewlines uncommentedText) ∧
      (Page.ofText commentedText "A.h").SeesAlike (Page.ofText uncommentedText "A.h") ∧
      (parseHeader commentedText "A.h").1.outlines
        = (parseHeader uncommentedText "A.h").1.outlines := by
  have hmask : maskCode (Text.normalizeNewlines commentedText)
      = maskCode (Text.normalizeNewlines uncommentedText) := by
    decide +kernel
  have hseen : (Page.ofText commentedText "A.h").SeesAlike (Page.ofText uncommentedText "A.h") :=
    Page.seesAlike_of_map_eq
      (l := [(0, .nothing), (8, .nothing), (12, .nothing), (13, .member "x"), (26, .member "y"),
        (33, .nothing), (53, .nothing), (56, .nothing)])
      (by decide +kernel) (by decide +kernel) (by decide)
  exact ⟨hmask, hseen, outlines_eq_of_seesAlike hmask hseen⟩

/-- A header whose member has a comment in its declaration. -/
def countText : Text :=
  "class A\n\x7b\n    int /* count */ x;\n\x7d;\n"

/-- The same header with blanks in place of the comment. -/
def blankText : Text :=
  "class A\n\x7b\n    int             x;\n\x7d;\n"

/-- **The masked copy alone does not show the structure**: the declaration of a member is read from
the text itself, and a comment in it makes it unreadable. -/
theorem not_forall_outlines_eq :
    ¬∀ text text' path : Text, maskCode text = maskCode text' →
      (parseHeader text path).1.outlines = (parseHeader text' path).1.outlines := by
  intro hall
  have hsame := hall countText blankText "A.h" (by decide +kernel)
  have hdropped : (parseHeader countText "A.h").1.outlines = [⟨"A", .classType, [], [], []⟩] := by
    decide +kernel
  have htaken : (parseHeader blankText "A.h").1.outlines
      = [⟨"A", .classType, [], [("x", .priv)], []⟩] := by
    decide +kernel
  rw [hdropped, htaken] at hsame
  revert hsame
  decide

end Sharpen
