import Mathlib.Data.List.Basic
import Sharpen.Proofs.Header.Order

/-!
# Reading to the End

A header is read in steps. This module shows that each of them leads on, that none of them leaves
the body of the type that is being read, and that the reading therefore ends, for every text.

A step can fail where it looks something up in the text: a bracket at a position, a line by its
number, a character behind another. These look-ups are listed for what stands at the place, by the
same functions that decide what the step does, so that they change when a step does. Each is shown
to succeed, and the position behind a step to be larger than before and within the body, from which
the end of the reading follows.

## Main definitions

* `headerLookups` — the look-ups of a step that could fail; the lemmas `succeeds_…` show that none
  does.
* `HeaderScan.PlacedAt` — the invariant: the reading is in the body of the open type.
* `OpenType.OpenedIn` — an open type was opened with a brace of the page; its body ends at the brace
  that closes it, or with the text if there is none.
* `HeaderScan.KeepsOpen` — what a step leaves of an open type: where its body ends, and its name.
* `Lookup` — a look-up that fails when there is nothing at the place.

## Main results

* `insideStep_advances`, `HeaderScan.Outside.advances`, `closeType_advances` — what each step does
  to the position.
* `readsThrough_ofText` — every header is read to its end, and a type without closing brace is
  finished there.
* `HeaderScan.Inside.keepsOpen` — a step inside a type leaves the type open.
* `HeaderScan.PlacedAt.step` — one step moves on and keeps the invariant.
* `Page.Reaches.placedAt` — the whole reading keeps the invariant.
-/

namespace Sharpen

/-! ### One step -/

/-- An open type was opened with a brace of the page; its body ends at the brace that closes it, or
with the text if there is none. -/
def OpenType.OpenedIn (page : Page) (o : OpenType) : Prop :=
  ∃ brace, page.masked[brace]? = some '\x7b' ∧
    o.bodyEnd = (matchingAt? '\x7b' '\x7d' page.masked brace).getD page.text.length

/-- The body of an open type ends with the text or at a closing brace. -/
theorem OpenType.OpenedIn.bodyEnd {page : Page} {o : OpenType} (h : o.OpenedIn page)
    (hpage : page.masked.length = page.text.length) :
    o.bodyEnd = page.text.length ∨
      (o.bodyEnd < page.text.length ∧ page.masked[o.bodyEnd]? = some '\x7d') := by
  obtain ⟨brace, -, hend⟩ := h
  rw [hend]
  cases hmatch : matchingAt? '\x7b' '\x7d' page.masked brace with
  | none => exact Or.inl rfl
  | some k =>
      obtain ⟨-, hclose⟩ := matchingAt?_eq_some hmatch
      exact Or.inr ⟨hpage ▸ (List.getElem?_eq_some_iff.mp hclose).1, hclose⟩

/-- What a step leaves of an open type: where its body ends, and its name. -/
def HeaderScan.KeepsOpen (s : HeaderScan) (o : OpenType) : Prop :=
  ∃ o', s.current = some o' ∧ o'.bodyEnd = o.bodyEnd ∧ o'.decl.name = o.decl.name

section

variable {page : Page} {s : HeaderScan} {o : OpenType} {pos : Nat}

/-- **A step inside a type** leaves the type open. -/
theorem HeaderScan.Inside.keepsOpen {s' : HeaderScan} {next : Nat}
    (h : s.Inside page o pos next s') (hs : s.current = some o) : s'.KeepsOpen o := by
  cases h with
  | blank | passed | ignored => exact ⟨o, hs, rfl, rfl⟩
  | regionStart | constant | label | method | member => exact ⟨_, rfl, rfl, rfl⟩
  | regionEnd =>
      refine ⟨_, rfl, ?_⟩
      rw [OpenType.endRegion]
      split <;> exact ⟨rfl, rfl⟩

/-- It leads to a later position, which is not behind the end of the body. -/
theorem insideStep_advances (hs : s.current = some o) (hlimit : o.bodyEnd ≤ page.text.length)
    (hpos : pos < o.bodyEnd) :
    (insideStep page s o pos).1.KeepsOpen o ∧ pos < (insideStep page s o pos).2 ∧
      (insideStep page s o pos).2 ≤ o.bodyEnd := by
  obtain ⟨⟨hlt, hle⟩, hinside⟩ := insideStep_spec page s o pos
  exact ⟨hinside.keepsOpen hs, by omega, hle⟩

/-- The head of a type has its brace on the page, not before its start. -/
theorem typeHead?_brace {head : TypeHead} (h : typeHead? page pos = some head) :
    pos ≤ head.brace ∧ page.masked[head.brace]? = some '\x7b' := by
  simp only [typeHead?, Option.bind_eq_bind, Option.bind_eq_some_iff] at h
  obtain ⟨⟨isTypedef, isStruct⟩, -, brace, hbrace, hhead⟩ := h
  split at hhead
  · cases hhead
  · obtain rfl := Option.some.inj hhead
    exact Text.findChar?_eq_some hbrace

/-- **A step outside types** leads to a later position. It opens a type at its brace, or none. -/
theorem HeaderScan.Outside.advances {s' : HeaderScan} {next : Nat}
    (h : s.Outside page pos s' next) (hs : s.current = none)
    (hpage : page.masked.length = page.text.length) (hpos : pos < page.text.length) :
    pos < next ∧ ∀ o, s'.current = some o → o.OpenedIn page ∧ next ≤ o.bodyEnd := by
  have hline := page.le_lineEnd pos
  cases h with
  | blank | constant | ignored | passed => exact ⟨by omega, by simp [hs]⟩
  | @opens head _ _ hhead =>
      obtain ⟨hle, hbrace⟩ := typeHead?_brace hhead
      refine ⟨by omega, fun o ho => ?_⟩
      obtain rfl := Option.some.inj ho
      refine ⟨⟨head.brace, hbrace, rfl⟩, ?_⟩
      have hlt := (List.getElem?_eq_some_iff.mp hbrace).1
      change head.brace + 1 ≤ (matchingAt? _ _ page.masked head.brace).getD page.text.length
      cases hmatch : matchingAt? '\x7b' '\x7d' page.masked head.brace with
      | none => simp only [Option.getD_none]; omega
      | some k =>
          have hclose := matchingAt?_eq_some hmatch
          simp only [Option.getD_some]
          omega

/-- **Closing a type** leads behind the end of its body and leaves no type open. -/
theorem closeType_advances (page : Page) (s : HeaderScan) (o : OpenType)
    (hlimit : o.bodyEnd < page.text.length) :
    o.bodyEnd < (closeType page s o).2 ∧ (closeType page s o).1.current = none := by
  obtain ⟨closingName, hname, heq, hle⟩ := closeType_spec page s o
  exact ⟨by omega, heq ▸ (finishType_eq page s hname).2.1⟩

end

/-! ### Look-ups -/

/-- A look-up that fails when there is nothing at the place. -/
inductive Lookup where
  /-- The bracket that closes the one at position `i` of `t`. -/
  | closing (t : Text) (i : Nat)
  /-- The comment above a line. -/
  | comments (line : Nat)
  /-- The character at position `i` of `t`. -/
  | character (t : Text) (i : Nat)

/-- A look-up succeeds: an opening bracket stands at the place, the line is there, whatever lines
have been taken already, and so is the character. -/
def Lookup.Succeeds (page : Page) : Lookup → Prop
  | closing t i => ∃ found, findMatching? t i = .ok found
  | comments line => ∀ claimed, (collectComments? page.lines line claimed).isSome
  | character t i => t[i]?.isSome

/-- The look-ups in the masked text of a method declaration: for the parenthesis that ends its
parameters and, if there is one, for the brace that ends its body. -/
def methodLookups (masked : Text) : List Lookup :=
  let opening := parametersStart masked
  .closing masked opening ::
    match matchingAt? '(' ')' masked opening with
    | none => []
    | some closing =>
      let tail := masked.drop (closing + 1)
      (methodTail tail tail).brace.toList.map (.closing tail)

/-- The look-ups outside types: for the comment above a constant or type and for the brace that ends
a type or block. -/
def FileItem.lookups (page : Page) (line : FileLine) : FileItem → List Lookup
  | .blank | .directive | .scope | .code => []
  | .constant => [.comments line.number]
  | .head type => [.closing page.masked type.brace, .comments line.number]
  | .block brace => [.closing page.masked brace]

/-- The look-ups for the end of the statement that starts at `start`: for its characters. -/
def statementLookups (page : Page) (start limit : Nat) : List Lookup :=
  (List.range' start (limit - start)).map (.character page.masked)

/-- The look-ups for what is taken of a construct: for the comment above it, for the brackets of a
method and for the last character of a type inside the type. -/
def Construct.lookups (page : Page) (line : BodyLine) : Construct → List Lookup
  | .label _ _ => []
  | .passed (.nestedType stop) _ => [.character page.masked stop]
  | .passed _ _ => []
  | .method stop => .comments line.number :: methodLookups (page.masked.slice line.start stop)
  | .member _ => [.comments line.number]

/-- The look-ups in the body of a type. -/
def BodyItem.lookups (page : Page) (limit : Nat) (line : BodyLine) : BodyItem → List Lookup
  | .blank => []
  | .directive => [.comments line.number]
  | .construct c => statementLookups page line.start limit ++ c.lookups page line

/-- **The look-ups of a step** from position `pos`, by what the step finds there. -/
def headerLookups (page : Page) (s : HeaderScan) (pos : Nat) : List Lookup :=
  match s.current with
  | none => (page.fileItem pos).lookups page (page.fileLine pos)
  | some o =>
    if o.bodyEnd ≤ pos then []
    else (page.bodyItem o.decl.name o.bodyEnd pos).lookups page o.bodyEnd
      (page.bodyLine o.bodyEnd pos)

/-- There is one line more than newlines. -/
theorem Text.length_lines (t : Text) : t.lines.length = t.count '\n' + 1 := by
  rw [Text.lines]
  induction t with
  | nil => rfl
  | cons c r ih =>
      rw [Text.splitOn]
      split
      · rename_i hc
        rw [List.length_cons, ih, List.count_cons, if_pos hc]
      · rename_i hc
        have hlength : ∀ ls : List Text, ls ≠ [] → (Text.consHead c ls).length = ls.length := by
          rintro (_ | ⟨l, ls⟩) hne
          · exact absurd rfl hne
          · rfl
        rw [hlength _ (by rw [← List.length_pos_iff]; omega), ih, List.count_cons]
        simp [hc]

/-- The comment above the line of a position can be looked for. -/
theorem succeeds_comments {page : Page} (hlines : page.lines = page.text.lines) (pos : Nat) :
    (Lookup.comments (page.lineOf pos)).Succeeds page := by
  intro claimed
  have hcount : (page.text.take pos).count '\n' ≤ page.text.count '\n' :=
    (List.take_sublist pos page.text).count_le _
  have hlength := Text.length_lines page.text
  rw [collectComments?, if_pos]
  · rfl
  · simp only [Bool.or_eq_true, decide_eq_true_eq]
    exact Or.inl (by rw [hlines, Page.lineOf, Text.lineOf]; omega)

/-- The bracket that closes the one at a place can be looked for. -/
theorem succeeds_closing {page : Page} {t : Text} {i : Nat} {opn : Char}
    (hopn : t[i]? = some opn) (hclose : (closingBracket opn).isSome) :
    (Lookup.closing t i).Succeeds page := by
  obtain ⟨close, hclose⟩ := Option.isSome_iff_exists.mp hclose
  exact ⟨_, findMatching?_eq_ok hopn hclose⟩

section

variable {page : Page}

/-- The body of a method starts at the first brace behind its parameters. -/
theorem methodTail_brace (masked text : Text) :
    (methodTail masked text).brace = masked.findIdx? (· == '\x7b') := by
  rw [methodTail]
  split
  · rename_i hbrace
    rw [hbrace]
  · rename_i hbrace
    dsimp only
    split <;> exact hbrace.symm

/-- The look-ups in a method declaration succeed. -/
theorem succeeds_methodLookups {masked : Text} (h : masked.contains '(' = true) :
    ∀ l ∈ methodLookups masked, l.Succeeds page := by
  obtain ⟨opening, hopening⟩ : ∃ i, masked.findIdx? (· == '(') = some i := by
    rw [← Option.isSome_iff_exists, List.findIdx?_isSome]
    simpa [List.contains_iff_mem] using h
  have hparen : masked[parametersStart masked]? = some '(' := by
    rw [parametersStart, hopening]
    exact getElem?_findIdx?_eq hopening
  refine List.forall_mem_cons.mpr ⟨succeeds_closing hparen rfl, fun l hl => ?_⟩
  split at hl
  · cases hl
  · obtain ⟨brace, hbrace, rfl⟩ := List.mem_map.mp hl
    rw [Option.mem_toList, methodTail_brace] at hbrace
    exact succeeds_closing (getElem?_findIdx?_eq hbrace) rfl

/-- A character of a text can be looked for. -/
theorem succeeds_character {t : Text} {i : Nat} (h : i < t.length) :
    (Lookup.character t i).Succeeds page := by
  rw [Lookup.Succeeds, List.getElem?_eq_getElem h]
  rfl

/-- The look-ups of a step outside types succeed. -/
theorem succeeds_fileItem (hlines : page.lines = page.text.lines) (pos : Nat) :
    ∀ l ∈ (page.fileItem pos).lookups page (page.fileLine pos), l.Succeeds page := by
  have hcomments := succeeds_comments hlines pos
  have hstands := page.stands_fileItem pos
  generalize page.fileItem pos = item at hstands ⊢
  cases hstands with
  | blank | directive | scope | code => exact List.forall_mem_nil _
  | constant => exact List.forall_mem_singleton.mpr hcomments
  | head hcode hline hhead =>
      have hclosing : (Lookup.closing page.masked _).Succeeds page :=
        succeeds_closing (typeHead?_brace hhead).2 rfl
      exact List.forall_mem_cons.mpr ⟨hclosing, List.forall_mem_singleton.mpr hcomments⟩
  | @block hcode hline hhead offset hbrace =>
      have hchar := getElem?_findIdx?_eq hbrace
      rw [Text.slice, List.getElem?_drop, List.getElem?_take] at hchar
      split at hchar
      · exact List.forall_mem_singleton.mpr (succeeds_closing hchar rfl)
      · cases hchar

/-- The look-ups of a step inside a type succeed. -/
theorem succeeds_bodyItem (hlines : page.lines = page.text.lines) {limit : Nat}
    (hlimit : limit ≤ page.masked.length) (name : Text) (pos : Nat) :
    ∀ l ∈ (page.bodyItem name limit pos).lookups page limit (page.bodyLine limit pos),
      l.Succeeds page := by
  have hcomments : (Lookup.comments (page.bodyLine limit pos).number).Succeeds page :=
    succeeds_comments hlines pos
  rw [Page.bodyItem]
  split
  · exact List.forall_mem_nil _
  rename_i hcode
  split
  · exact List.forall_mem_singleton.mpr hcomments
  have hstart : (page.bodyLine limit pos).start < page.lineEndWithin pos limit :=
    page.codeStart_lt pos (Bool.not_eq_true _ ▸ hcode)
  have hle : page.lineEndWithin pos limit ≤ limit := Nat.min_le_right _ _
  have hstop := page.statementEnd_lt _ limit (Nat.lt_of_lt_of_le hstart hle)
  have hends := page.ends_constructAt name limit (page.bodyLine limit pos).start
    (page.bodyLine limit pos).next (page.bodyLine limit pos).code
  refine List.forall_mem_append.mpr ⟨fun l hl => ?_, ?_⟩
  · obtain ⟨i, hi, rfl⟩ := List.mem_map.mp hl
    have hlt := (List.mem_range'_1.mp hi).2
    exact succeeds_character (by omega)
  · generalize page.constructAt name limit (page.bodyLine limit pos).start
      (page.bodyLine limit pos).next (page.bodyLine limit pos).code = c at hends ⊢
    cases hends with
    | label | keyword => exact List.forall_mem_nil _
    | @line reason hreason =>
        cases reason with
        | nestedType stop => exact absurd rfl (hreason stop)
        | keyword | macroCall | unknown => exact List.forall_mem_nil _
    | nestedType => exact List.forall_mem_singleton.mpr (succeeds_character (by omega))
    | method hparen =>
        exact List.forall_mem_cons.mpr ⟨hcomments, succeeds_methodLookups hparen⟩
    | member => exact List.forall_mem_singleton.mpr hcomments

end

/-! ### The whole reading -/

/-- What has been read where the reading of a page starts. -/
def Page.firstScan (page : Page) : HeaderScan :=
  { claimed := (bannerComments page.lines).claimed }

/-- What the reading of a page comes to, step after step, as long as text is left. No step is held
back: this also describes a reading that does not move on. -/
inductive Page.Reaches (page : Page) : HeaderScan → Nat → Prop
  | start : page.Reaches page.firstScan 0
  | step {s : HeaderScan} {pos : Nat} : page.Reaches s pos → pos < page.text.length →
      page.Reaches (headerStep page s pos).1 (headerStep page s pos).2

/-- **The invariant of reading a page** up to position `pos`: the open type was opened with a brace
of the page, and its body does not end before `pos`. -/
def HeaderScan.PlacedAt (page : Page) (s : HeaderScan) (pos : Nat) : Prop :=
  ∀ o, s.current = some o → o.OpenedIn page ∧ pos ≤ o.bodyEnd

section

variable {page : Page} {s : HeaderScan} {pos : Nat}

/-- The body of an open type ends in the text. -/
theorem OpenType.OpenedIn.bodyEnd_le {o : OpenType} (h : o.OpenedIn page)
    (hpage : page.masked.length = page.text.length) : o.bodyEnd ≤ page.text.length := by
  rcases h.bodyEnd hpage with heq | ⟨hlt, -⟩ <;> omega

/-- **One step moves on and keeps the invariant.** -/
theorem HeaderScan.PlacedAt.step (h : s.PlacedAt page pos)
    (hpage : page.masked.length = page.text.length) (hpos : pos < page.text.length) :
    pos < (headerStep page s pos).2 ∧
      (headerStep page s pos).1.PlacedAt page (headerStep page s pos).2 := by
  rw [headerStep]
  split
  · rename_i hs
    exact (outsideStep_outside page s pos).advances hs hpage hpos
  · rename_i o hs
    obtain ⟨hopened, hle⟩ := h o hs
    split
    · obtain ⟨hlt, hnone⟩ := closeType_advances page s o (by omega)
      exact ⟨by omega, by simp [HeaderScan.PlacedAt, hnone]⟩
    · obtain ⟨⟨o', hs', hend, -⟩, hlt, hle'⟩ :=
        insideStep_advances hs (hopened.bodyEnd_le hpage) (by omega : pos < o.bodyEnd)
      refine ⟨hlt, fun o'' ho'' => ?_⟩
      obtain rfl : o' = o'' := Option.some.inj (hs'.symm.trans ho'')
      obtain ⟨brace, hbrace, hmatch⟩ := hopened
      exact ⟨⟨brace, hbrace, hend.trans hmatch⟩, hend ▸ hle'⟩

/-- **The whole reading keeps the invariant.** -/
theorem Page.Reaches.placedAt (h : page.Reaches s pos)
    (hpage : page.masked.length = page.text.length) : s.PlacedAt page pos := by
  induction h with
  | start => exact fun _ ho => nomatch ho
  | step _ hpos ih => exact (ih.step hpage hpos).2

/-- The reading goes the same way from every place it comes to. -/
theorem Page.Reaches.headerLoop_eq (h : page.Reaches s pos)
    (hpage : page.masked.length = page.text.length) :
    headerLoop page s pos = headerLoop page page.firstScan 0 := by
  induction h with
  | start => rfl
  | @step s pos hreach hpos ih =>
      rw [← ih, headerLoop.eq_def page s pos, if_pos hpos]
      have hlt := ((hreach.placedAt hpage).step hpage hpos).1
      simp only [hlt, if_true]

/-- The reading comes to the end of the text. -/
theorem Page.Reaches.loop (h : page.Reaches s pos)
    (hpage : page.masked.length = page.text.length) :
    ∃ stop, page.text.length ≤ stop ∧ page.Reaches (headerLoop page s pos) stop := by
  fun_induction headerLoop page s pos with
  | case1 s pos hpos s' next hstep hlt ih => exact ih (by simpa [hstep] using h.step hpos)
  | case2 s pos hpos s' next hstep hlt =>
      have hmoves := ((h.placedAt hpage).step hpage hpos).1
      rw [hstep] at hmoves
      exact absurd hmoves hlt
  | case3 s pos hpos => exact ⟨pos, by omega, h⟩

/-- A type without closing brace stays open to the end. -/
theorem Page.Reaches.keepsOpen {o : OpenType} (h : page.Reaches s pos) (hs : s.current = some o)
    (hpage : page.masked.length = page.text.length) (hend : o.bodyEnd = page.text.length) :
    (headerLoop page s pos).KeepsOpen o := by
  fun_induction headerLoop page s pos generalizing o with
  | case1 s pos hpos s' next hstep hlt ih =>
      have hinside : headerStep page s pos = insideStep page s o pos := by
        simp only [headerStep, hs]
        rw [if_neg (by omega)]
      obtain ⟨⟨o', hs', hend', hname'⟩, -, -⟩ := insideStep_advances hs
        (show o.bodyEnd ≤ page.text.length by omega) (show pos < o.bodyEnd by omega)
      rw [← hinside, hstep] at hs'
      have hreach : page.Reaches s' next := by simpa [hstep] using h.step hpos
      obtain ⟨o'', hs'', hend'', hname''⟩ := ih hreach hs' (by omega)
      exact ⟨o'', hs'', hend''.trans hend', hname''.trans hname'⟩
  | case2 s pos hpos s' next hstep hlt =>
      have hmoves := ((h.placedAt hpage).step hpage hpos).1
      rw [hstep] at hmoves
      exact absurd hmoves hlt
  | case3 s pos hpos => exact ⟨o, hs, rfl, rfl⟩

end

/-! ### The whole header -/

/-- Finishing a type without closing brace reports it, and takes it with all it has unless it has no
name. -/
theorem finishOpenType_eq {s : HeaderScan} {o : OpenType} (hs : s.current = some o) :
    (HeaderNotice.missingBrace o.decl.name) ∈ (finishOpenType s).notices ∧
      if o.decl.name.isEmpty then HeaderNotice.anonymousType ∈ (finishOpenType s).notices
      else ∃ d ∈ (finishOpenType s).types, d.name = o.decl.name ∧ d.members = o.decl.members ∧
        d.methods = o.decl.methods.map (ownedMethod o.decl.name) := by
  simp only [finishOpenType, hs, finishType, List.isEmpty_nil, if_true]
  split
  · simp [HeaderScan.report]
  · refine ⟨by simp [HeaderScan.report], _, List.mem_append_right _ (List.mem_singleton_self _), ?_⟩
    exact ⟨rfl, rfl, rfl⟩

/-- The end of the reading gives constants to a type and changes nothing else in any of them. -/
theorem map_types_readHeader {β : Type} {f : TypeDecl → β}
    (hf : ∀ (d : TypeDecl) constants, f { d with headerConstants := constants } = f d)
    (page : Page) :
    (readHeader page).1.types.map f
      = (finishOpenType (headerLoop page page.firstScan 0)).types.map f := by
  simp only [readHeader]
  split
  · exact map_modify_eq (fun d => hf d _) _ _
  · split <;> rfl

/-- What has been reported stays reported. -/
theorem mem_notices_readHeader {page : Page} {n : HeaderNotice}
    (h : n ∈ (finishOpenType (headerLoop page page.firstScan 0)).notices) :
    n ∈ (readHeader page).2 := by
  simp only [readHeader]
  split
  · exact h
  · split
    · exact h
    · exact List.mem_append_left _ h

/-- **A reading that comes to its end**, of a text with the given page: it moves on from wherever it
comes to, finds all it looks up, and closes a type at its brace or, if there is none, at the end of
the text. -/
structure ReadsThrough (text path : Text) (page : Page) : Prop where
  /-- Every step, outside and inside types and at the end of one, leads to a later position. -/
  advances : ∀ s pos, page.Reaches s pos → pos < page.text.length → pos < (headerStep page s pos).2
  /-- No look-up of a step fails. -/
  lookups : ∀ s pos, page.Reaches s pos → pos < page.text.length →
    ∀ l ∈ headerLookups page s pos, l.Succeeds page
  /-- An open type is never left behind. -/
  within : ∀ s pos o, page.Reaches s pos → s.current = some o → pos ≤ o.bodyEnd
  /-- A type is closed exactly where its body ends. -/
  closes : ∀ s pos o, page.Reaches s pos → s.current = some o →
    headerStep page s pos = if pos = o.bodyEnd then closeType page s o else insideStep page s o pos
  /-- The steps come to the end of the text, with what the loop gives. -/
  ends : ∃ stop, page.text.length ≤ stop ∧ page.Reaches (headerLoop page page.firstScan 0) stop
  /-- A type without closing brace is open up to the end, and finished there with a warning. -/
  finishes : ∀ s pos o, page.Reaches s pos → s.current = some o →
    page.masked[o.bodyEnd]? ≠ some '\x7d' →
    ∃ last, (headerLoop page page.firstScan 0).current = some last ∧
      last.decl.name = o.decl.name ∧
      (⟨.warning, "parsing.header", page.stem ++ ": " ++ ("type " ++ o.decl.name ++
        " is missing its closing brace")⟩ : Record) ∈ (parseHeader text path).2 ∧
      if o.decl.name.isEmpty then
        (⟨.warning, "parsing.header", page.stem ++ ": " ++
          "dropping anonymous type without a name"⟩ : Record) ∈ (parseHeader text path).2
      else ∃ d ∈ (parseHeader text path).1.types, d.name = o.decl.name ∧
        d.members = last.decl.members ∧
        d.methods = last.decl.methods.map (ownedMethod o.decl.name)

/-- **Every header is read to its end**, whatever its text is. -/
theorem readsThrough_ofText (text path : Text) :
    ReadsThrough text path (Page.ofText text path) := by
  generalize hof : Page.ofText text path = page
  have hpage : page.masked.length = page.text.length := hof ▸ length_maskCode _
  have hlines : page.lines = page.text.lines := hof ▸ rfl
  refine ⟨fun s pos h hpos => ((h.placedAt hpage).step hpage hpos).1, ?_,
    fun s pos o h hs => (h.placedAt hpage o hs).2, ?_, Page.Reaches.start.loop hpage, ?_⟩
  · intro s pos h hpos l hl
    rw [headerLookups] at hl
    split at hl
    · exact succeeds_fileItem hlines pos l hl
    · rename_i o hs
      split at hl
      · cases hl
      · have hlimit := (h.placedAt hpage o hs).1.bodyEnd_le hpage
        exact succeeds_bodyItem hlines (by omega) _ pos l hl
  · intro s pos o h hs
    have hle := (h.placedAt hpage o hs).2
    have hiff : o.bodyEnd ≤ pos ↔ pos = o.bodyEnd := by omega
    simp only [headerStep, hs, hiff]
  · intro s pos o h hs hmissing
    obtain hend | ⟨-, hbrace⟩ := (h.placedAt hpage o hs).1.bodyEnd hpage
    · obtain ⟨last, hlast, -, hname⟩ := h.keepsOpen hs hpage hend
      rw [h.headerLoop_eq hpage] at hlast
      obtain ⟨hnotice, htype⟩ := finishOpenType_eq hlast
      rw [hname] at hnotice htype
      have hrecord : ∀ {n}, n ∈ (finishOpenType (headerLoop page page.firstScan 0)).notices →
          n.toRecord page.stem ∈ (parseHeader text path).2 := by
        intro n hn
        rw [parseHeader, hof]
        exact List.mem_map_of_mem (mem_notices_readHeader hn)
      refine ⟨last, hlast, hname, hrecord hnotice, ?_⟩
      split at htype
      · rename_i hempty
        rw [if_pos hempty]
        exact hrecord htype
      · rename_i hempty
        rw [if_neg hempty]
        obtain ⟨d, hd, hparts⟩ := htype
        have hmem := List.mem_map_of_mem (f := fun d => (d.name, d.members, d.methods)) hd
        rw [← map_types_readHeader (fun _ _ => rfl)] at hmem
        obtain ⟨d', hd', heq⟩ := List.mem_map.mp hmem
        simp only [Prod.mk.injEq] at heq
        refine ⟨d', by rwa [parseHeader, hof], ?_⟩
        rw [heq.1, heq.2.1, heq.2.2]
        exact hparts
    · exact absurd hbrace hmissing

end Sharpen
