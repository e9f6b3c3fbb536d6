import Mathlib.Data.List.Forall2
import Mathlib.Data.List.Induction
import Sharpen.Proofs.Source.Tidy

/-!
# The Implementations that are Kept

Implementations are looked for in two passes over a source file. Each one that is found takes a
stretch of the text, and is read with the body at the end of it. All of the first pass are kept. One
of the second pass is dropped if another with the same owner, name and types of parameters has been
found before it, in whichever pass: two implementations that differ in nothing but a `const` behind
their parameters are such a pair.

Spans are what both passes have in common with the text. A definition that is found takes the span
from its start to the end of its body, unless a span before it has taken its start, and the body is
read from the same span. So there is one method for each span, in the order of finding, and the list
of implementations is that list without those that came again.

## Main definitions

* `primaryPass`, `recoveryPass`, `takenSpans` — what the two passes take of a source file.
* `Method.HasSpan` — a method is the one that was read from a span.
* `SourceScan.Takes` — the invariant of both passes: there is one method for each span.
* `scanBefore` — what is taken of a source file before implementations are looked for.
* `takenMethods` — the methods that both passes read.

## Main results

* `addUnseen_eq` — which methods of the second pass are kept.
* `map_asRead_methods_perm` — what a source is read as, in terms of the spans that are taken.
* `forall₂_hasSpan_takenSpans` — there is one method for each span that is taken, with the body of
  that span.
-/

namespace Sharpen

/-! ### The two passes -/

/-- What is taken of a source file before implementations are looked for. -/
def scanBefore (text path : Text) : SourceScan :=
  let page := SourcePage.ofText text path
  let s : SourceScan := { claimed := (bannerComments page.lines).claimed }
  let s := ((defineLine.findAll page.masked).foldl (takeConstant page) ([], s)).2
  ((embeddedType.findAll page.masked).foldl (takeEmbeddedType path page) ([], s)).2

/-- The pass over implementations of the usual form. -/
def primaryPass (text path : Text) : List Method × SourceScan :=
  let page := SourcePage.ofText text path
  (implementation.findAll page.masked).foldl (takeImplementation page) ([], scanBefore text path)

/-- The pass over implementations of other forms. -/
def recoveryPass (text path : Text) : List Method × SourceScan :=
  let page := SourcePage.ofText text path
  (scopedName.findAll page.masked).foldl (recoverImplementation page)
    ([], (primaryPass text path).2)

/-- The methods that both passes read. -/
def takenMethods (text path : Text) : List Method :=
  (primaryPass text path).1 ++ (recoveryPass text path).1

/-- The stretches of text that both passes take. -/
def takenSpans (text path : Text) : List (Nat × Nat) :=
  (recoveryPass text path).2.spans.drop (scanBefore text path).spans.length

/-! ### One method for each span -/

/-- A method starts with a span, and its body is what stands between the brace that is closed at the
end of the span and that end. A body that is not closed reaches to the end of the text. -/
structure Method.HasSpan (page : SourcePage) (span : Nat × Nat) (m : Method) : Prop where
  position : m.position = span.1
  body : ∃ brace, page.masked[brace]? = some '\x7b' ∧
    span.2 = (matchingAt? '\x7b' '\x7d' page.masked brace).getD page.text.length + 1 ∧
    m.body = some (normalizeBlock (page.text.slice (brace + 1) (span.2 - 1))).1

/-- The passes from scan `s` on have taken one span for each method. -/
def SourceScan.Takes (page : SourcePage) (s : SourceScan) (acc : List Method × SourceScan) : Prop :=
  ∃ spans, acc.2.spans = s.spans ++ spans ∧ List.Forall₂ (Method.HasSpan page) spans acc.1

/-- The position of a character that is read is a position of that character. -/
theorem Reader.gives_here_char {α : Type} {P : α → Prop} (x : Char) (t : Text) {k : Nat → Reader α}
    (hk : ∀ i, t[i]? = some x → (k i).Gives (Track.inside t) P) :
    (do
      let i ← Reader.here
      Reader.char x
      k i : Reader α).Gives (Track.inside t) P := by
  intro c a c' hc hrun
  have hrun' : (Reader.char x >>= fun _ => k c.position).run c = some (a, c') := hrun
  rw [StateT.run_bind] at hrun'
  obtain ⟨⟨_, c₁⟩, hchar, hrest⟩ := Option.bind_eq_some_iff.mp hrun'
  refine hk c.position ?_ (Reader.gives_char x hc hchar).2 hrest
  have hhead : c.rest.head? = some x := by
    cases h : c.rest with
    | nil => simp [Reader.char, Reader.satisfy, StateT.run, bind, StateT.bind, h] at hchar
    | cons y r =>
        by_cases hy : y = x
        · rw [hy, List.head?_cons]
        · simp [Reader.char, Reader.satisfy, StateT.run, bind, StateT.bind, h, hy] at hchar
  rw [← hhead, show c.rest = t.drop c.position from hc, List.head?_drop]

/-- The body of a definition starts with a brace. -/
theorem gives_bodyTail_brace (t : Text) :
    bodyTail.Gives (Track.inside t) fun tail => t[tail.brace]? = some '\x7b' := by
  refine Reader.gives_blanks.bind fun _ _ => ?_
  refine ((Reader.gives_text _).bind fun _ _ => Reader.gives_wordEnd).present.bind fun _ _ => ?_
  refine Reader.gives_blanks.bind fun _ _ => ?_
  refine Reader.Gives.bind (Reader.Gives.option (P := fun _ => True) ?_) fun _ _ => ?_
  · refine (Reader.gives_char _).bind fun _ _ => Reader.gives_here.bind fun _ _ => ?_
    refine (Reader.gives_many _).bind fun _ _ => Reader.gives_here.bind fun _ _ => ?_
    exact Reader.gives_pure trivial
  · exact Reader.gives_here_char _ t fun _ hbrace => Reader.gives_pure hbrace

namespace SourceScan

variable {page : SourcePage} {s : SourceScan} {acc : List Method × SourceScan}

/-- A definition is read with the body at the end of the span that it takes. -/
theorem hasSpan_define (s : SourceScan) {d : Definition}
    (hbrace : page.masked[d.brace]? = some '\x7b') :
    (s.define page d).1.HasSpan page
      (d.start, (matchingAt? '\x7b' '\x7d' page.masked d.brace).getD page.text.length + 1) := by
  rw [fst_define]
  exact ⟨rfl, d.brace, hbrace, rfl, rfl⟩

/-- A definition takes the span it is read from. -/
theorem Takes.define (h : Takes page s acc) (d : Definition)
    (hbrace : page.masked[d.brace]? = some '\x7b') :
    Takes page s (acc.1 ++ [(acc.2.define page d).1], (acc.2.define page d).2) := by
  obtain ⟨spans, hspans, hread⟩ := h
  refine ⟨_, (spans_define acc.2 page d).trans ?_, List.rel_append hread
    (List.Forall₂.cons (hasSpan_define acc.2 hbrace) .nil)⟩
  rw [hspans, List.append_assoc]

/-- An implementation takes the span it is read from, unless it is passed over. -/
theorem Takes.takeImplementation (h : Takes page s acc) {m : Implementation}
    (hm : m ∈ implementation.findAll page.masked) :
    Takes page s (takeImplementation page acc m) := by
  obtain heq | ⟨d, tail, hd, hbrace, heq⟩ :=
    takeImplementation_cases acc hm (gives_bodyTail_brace page.masked)
  · exact heq.symm ▸ h
  · rw [heq]
    exact h.define d (hd.brace ▸ hbrace)

/-- So does one that is recovered. -/
theorem Takes.recoverImplementation (h : Takes page s acc) {m : ScopedName}
    (hm : m ∈ scopedName.findAll page.masked) :
    Takes page s (recoverImplementation page acc m) := by
  obtain heq | ⟨d, tail, hd, hbrace, heq⟩ :=
    recoverImplementation_cases acc hm (gives_bodyTail_brace page.masked)
  · exact heq.symm ▸ h
  · rw [heq]
    exact h.define d (hd.brace ▸ hbrace)

end SourceScan

/-- **There is one method for each span that is taken**, with the body of that span. -/
theorem forall₂_hasSpan_takenSpans (text path : Text) :
    List.Forall₂ (Method.HasSpan (SourcePage.ofText text path)) (takenSpans text path)
      (takenMethods text path) := by
  obtain ⟨first, hfirst, hprimary⟩ : SourceScan.Takes (SourcePage.ofText text path)
      (scanBefore text path) (primaryPass text path) :=
    List.foldlRecOn _ _ ⟨[], (List.append_nil _).symm, .nil⟩ fun _ h _ hm => h.takeImplementation hm
  obtain ⟨second, hsecond, hrecovery⟩ : SourceScan.Takes (SourcePage.ofText text path)
      (primaryPass text path).2 (recoveryPass text path) :=
    List.foldlRecOn _ _ ⟨[], (List.append_nil _).symm, .nil⟩ fun _ h _ hm =>
      h.recoverImplementation hm
  rw [takenSpans, hsecond, hfirst, List.append_assoc, List.drop_left]
  exact List.rel_append hprimary hrecovery

/-! ### Which methods are kept -/

/-- The methods of the two passes that are kept: all of the first pass, which are `n`, and of the
second those that are the first with their owner, name and types of parameters. -/
def keptOf (n : Nat) (taken : List Method) : List Method :=
  (taken.zipIdx.filter fun (m, i) =>
    i < n || !(taken.take i).any fun k => k.identity == m.identity).map Prod.fst

/-- One more method is added unless its identity has been seen. -/
theorem addUnseen_concat (methods more : List Method) (m : Method) :
    addUnseen methods (more ++ [m]) =
      if (addUnseen methods more).any fun k => k.identity == m.identity then
        addUnseen methods more
      else addUnseen methods more ++ [m] := by
  rw [addUnseen, List.foldl_append]
  rfl

/-- No identity is lost. -/
theorem any_identity_addUnseen (methods more : List Method) (m : Method) :
    ((addUnseen methods more).any fun k => k.identity == m.identity) =
      (methods ++ more).any fun k => k.identity == m.identity := by
  induction more using List.reverseRecOn with
  | nil => simp [addUnseen]
  | append_singleton more k ih =>
      rw [addUnseen_concat, ← List.append_assoc, List.any_append, ← ih]
      split
      · rename_i hseen
        cases hk : k.identity == m.identity with
        | false => simp [hk]
        | true =>
            rw [beq_iff_eq.mp hk] at hseen
            rw [hseen, Bool.true_or]
      · rw [List.any_append]

/-- One more method is kept unless its identity was taken before. -/
theorem keptOf_concat {n : Nat} {taken : List Method} (hn : n ≤ taken.length) (m : Method) :
    keptOf n (taken ++ [m]) =
      if taken.any fun k => k.identity == m.identity then keptOf n taken
      else keptOf n taken ++ [m] := by
  have hsame : (taken.zipIdx.filter fun (k, i) =>
      i < n || !((taken ++ [m]).take i).any fun k' => k'.identity == k.identity) =
      taken.zipIdx.filter fun (k, i) =>
        i < n || !(taken.take i).any fun k' => k'.identity == k.identity := by
    refine List.filter_congr fun ⟨k, i⟩ hmem => ?_
    have hi : i < taken.length := by simpa using List.snd_lt_of_mem_zipIdx hmem
    dsimp only
    rw [List.take_append_of_le_length (Nat.le_of_lt hi)]
  rw [keptOf, List.zipIdx_append, List.filter_append, List.map_append, hsame, ← keptOf]
  have hlast : decide (taken.length < n) = false := decide_eq_false (Nat.not_lt.mpr hn)
  cases htwin : taken.any fun k => k.identity == m.identity <;> simp [hlast, htwin]

/-- **The methods of the second pass that are kept** are those with a new identity. -/
theorem addUnseen_eq (methods more : List Method) :
    addUnseen methods more = keptOf methods.length (methods ++ more) := by
  induction more using List.reverseRecOn with
  | nil =>
      rw [List.append_nil, keptOf, List.filter_eq_self.mpr, List.zipIdx_map_fst]
      · rfl
      · rintro ⟨m, i⟩ hmem
        have hi : i < methods.length := by simpa using List.snd_lt_of_mem_zipIdx hmem
        simp [hi]
  | append_singleton more m ih =>
      rw [addUnseen_concat, any_identity_addUnseen, ih, ← List.append_assoc,
        keptOf_concat (by simp)]

/-! ### The methods of a source -/

/-- A method as it is read, before it gets its place and its region markers. -/
def Method.asRead (m : Method) : Method :=
  { m with order := 0, sourceRegionStart := [], sourceRegionEnd := [] }

/-- Changing how a method is shown does not change how it was read. -/
theorem map_asRead_modify (methods : List Method) (i : Nat) {f : Method → Method}
    (hf : ∀ m, (f m).asRead = m.asRead) :
    (methods.modify i f).map Method.asRead = methods.map Method.asRead := by
  refine List.ext_getElem? fun j => ?_
  rw [List.getElem?_map, List.getElem?_map, List.getElem?_modify]
  split
  · cases methods[j]? <;> simp [hf]
  · simp

/-- Nor does giving it the regions around it. -/
theorem map_asRead_attachRegions (page : SourcePage) (methods : List Method) :
    (attachRegions page methods).map Method.asRead = methods.map Method.asRead := by
  refine List.foldlRecOn (motive := fun placed : List Method =>
    placed.map Method.asRead = methods.map Method.asRead) _ _ rfl fun placed h r _ => ?_
  rw [attachRegion_eq]
  split
  · cases placed.findIdx? fun k => r.start < k.position with
    | none => exact h
    | some i => exact Eq.trans (map_asRead_modify placed i fun _ => rfl) h
  · cases lastBelow? (fun i => placed[i]?.any (·.position < r.start)) placed.length with
    | none => exact h
    | some i => exact Eq.trans (map_asRead_modify placed i fun _ => rfl) h

/-- Nor does numbering it. -/
theorem map_asRead_numberMethods (positions : List Nat) (base : Nat) (methods : List Method) :
    (numberMethods positions base methods).map Method.asRead = methods.map Method.asRead := by
  refine List.ext_getElem? fun i => ?_
  rw [numberMethods, List.getElem?_map, List.getElem?_map, List.getElem?_mapIdx]
  cases methods[i]? <;> rfl

/-- Nothing is lost or changed when methods get their places and their region markers. -/
theorem map_asRead_placed_perm (page : SourcePage) (positions : List Nat) (methods : List Method) :
    ((attachRegions page (sortByPosition (numberMethods positions 0 methods))).map
      Method.asRead).Perm (methods.map Method.asRead) := by
  rw [map_asRead_attachRegions, ← map_asRead_numberMethods positions 0 methods]
  exact (List.mergeSort_perm _ _).map _

/-- Implementations are told from local functions. -/
theorem map_asRead_filter_perm {placed methods locals : List Method}
    (hplaced : (placed.map Method.asRead).Perm ((methods ++ locals).map Method.asRead))
    (hmethods : ∀ m ∈ methods, m.isLocal = false) (hlocals : ∀ m ∈ locals, m.isLocal = true) :
    ((placed.filter fun m => !m.isLocal).map Method.asRead).Perm (methods.map Method.asRead) := by
  have hfilter : ∀ l : List Method, (l.filter fun m => !m.isLocal).map Method.asRead =
      (l.map Method.asRead).filter fun m => !m.isLocal := fun l => by
    rw [List.filter_map]
    rfl
  have hkeep : methods.filter (fun m => !m.isLocal) = methods :=
    List.filter_eq_self.mpr fun m hm => by simp [hmethods m hm]
  have hdrop : locals.filter (fun m => !m.isLocal) = [] :=
    List.filter_eq_nil_iff.mpr fun m hm => by simp [hlocals m hm]
  rw [hfilter]
  refine (hplaced.filter _).trans (List.Perm.of_eq ?_)
  rw [← hfilter, List.filter_append, hkeep, hdrop, List.append_nil]

/-- A method of one of the passes is as it was read, and no local function. -/
def Method.IsFresh (m : Method) : Prop :=
  m.asRead = m ∧ m.isLocal = false

/-- What a definition adds is fresh. -/
theorem isFresh_define (s : SourceScan) (page : SourcePage) (d : Definition) :
    (s.define page d).1.IsFresh := by
  simp only [SourceScan.fst_define, Method.IsFresh, Method.asRead, and_self]

/-- All methods of the first pass are fresh. -/
theorem forall_isFresh_primaryPass (text path : Text) :
    ∀ m ∈ (primaryPass text path).1, m.IsFresh := by
  refine List.foldlRecOn (motive := fun acc : List Method × SourceScan => ∀ m ∈ acc.1, m.IsFresh)
    _ _ (by simp) fun acc h m hm => ?_
  exact Readable.takeImplementation (fun s d _ => isFresh_define s _ d) h hm

/-- So are those of the second. -/
theorem forall_isFresh_recoveryPass (text path : Text) :
    ∀ m ∈ (recoveryPass text path).1, m.IsFresh := by
  refine List.foldlRecOn (motive := fun acc : List Method × SourceScan => ∀ m ∈ acc.1, m.IsFresh)
    _ _ (by simp) fun acc h m hm => ?_
  exact Readable.recoverImplementation (fun s d _ => isFresh_define s _ d) h hm

/-- The methods of a source are those of the first pass and the unseen ones of the second. -/
theorem map_asRead_methods_parseSource (text path : Text) :
    ((parseSource text path).1.methods.map Method.asRead).Perm
      (addUnseen (primaryPass text path).1 (recoveryPass text path).1) := by
  have hfresh : ∀ m ∈ addUnseen (primaryPass text path).1 (recoveryPass text path).1, m.IsFresh :=
    Readable.forall_mem_addUnseen (forall_isFresh_primaryPass text path)
      (forall_isFresh_recoveryPass text path)
  have hread : (addUnseen (primaryPass text path).1 (recoveryPass text path).1).map Method.asRead =
      addUnseen (primaryPass text path).1 (recoveryPass text path).1 :=
    (List.map_congr_left fun m hm => (hfresh m hm).1).trans (List.map_id' _)
  rw [← hread]
  refine map_asRead_filter_perm (map_asRead_placed_perm _ _ _) (fun m hm => (hfresh m hm).2) ?_
  refine List.foldlRecOn (motive := fun found => ∀ m ∈ FoundFunctions.locals found,
    m.isLocal = true) _ _ (by simp) fun found h m hm => ?_
  exact Readable.takeFreeFunction (fun _ _ _ => rfl) h hm

/-- All methods are kept if and only if no identity comes again in the second pass. As many methods
as there are stay only if the filter lets all of them pass. -/
theorem keptOf_perm_iff (primary recovered : List Method) :
    (keptOf primary.length (primary ++ recovered)).Perm (primary ++ recovered) ↔
      ∀ i (hi : i < recovered.length), ∀ k ∈ primary ++ recovered.take i,
        k.identity ≠ recovered[i].identity := by
  constructor
  · intro hperm i hi
    have hall := List.length_filter_eq_length_iff.mp (by
      simpa [keptOf] using hperm.length_eq :
      ((primary ++ recovered).zipIdx.filter fun (m, i) => i < primary.length ||
        !((primary ++ recovered).take i).any fun k => k.identity == m.identity).length =
          (primary ++ recovered).zipIdx.length)
    have hmem : (recovered[i], primary.length + i) ∈ (primary ++ recovered).zipIdx := by
      rw [List.mem_zipIdx_iff_getElem?]
      simp [hi]
    have hbehind : ¬ primary.length + i < primary.length := by omega
    simpa [hbehind, List.take_length_add_append, or_imp, forall_and] using hall _ hmem
  · intro hnew
    rw [keptOf, List.filter_eq_self.mpr, List.zipIdx_map_fst]
    rintro ⟨m, i⟩ hmem
    rw [List.mem_zipIdx_iff_getElem?] at hmem
    by_cases hi : i < primary.length
    · simp [hi]
    · obtain ⟨j, rfl⟩ := Nat.exists_eq_add_of_le (Nat.not_lt.mp hi)
      rw [List.getElem?_append_right (Nat.le_add_right _ _), Nat.add_sub_cancel_left] at hmem
      obtain ⟨hj, rfl⟩ := List.getElem?_eq_some_iff.mp hmem
      simpa [hi, List.take_length_add_append, or_imp, forall_and] using hnew j hj

/-- **What a source is read as.** Each stretch of the text that one of the two passes takes gives
one method, with the body of that stretch; the methods of the source are, up to their order, places
and region markers, all those of the first pass and those of the second that are the first with
their owner, name and types of parameters. So no implementation is dropped if and only if none that
the second pass finds has these in common with one that was found before it. -/
theorem map_asRead_methods_perm (text path : Text) :
    let page := SourcePage.ofText text path
    let methods := (parseSource text path).1.methods.map Method.asRead
    let primary := (primaryPass text path).1
    let recovered := (recoveryPass text path).1
    List.Forall₂ (Method.HasSpan page) (takenSpans text path) (primary ++ recovered) ∧
      methods.Perm (keptOf primary.length (primary ++ recovered)) ∧
      (methods.Perm (primary ++ recovered) ↔ ∀ i (hi : i < recovered.length),
        ∀ k ∈ primary ++ recovered.take i, k.identity ≠ recovered[i].identity) := by
  intro page methods primary recovered
  have hmethods : methods.Perm (keptOf primary.length (primary ++ recovered)) := by
    rw [← addUnseen_eq]
    exact map_asRead_methods_parseSource text path
  refine ⟨forall₂_hasSpan_takenSpans text path, hmethods, ?_⟩
  rw [← keptOf_perm_iff]
  exact ⟨hmethods.symm.trans, hmethods.trans⟩

/-- A source with two implementations that differ in a `const`, each of which takes a function. -/
def constOverloads : Text :=
  "int Shape::apply(int (*f)(int))\n\x7b\n    return f(1);\n\x7d\n\n" ++
    "int Shape::apply(int (*f)(int)) const\n\x7b\n    return f(2);\n\x7d\n"

/-- Of two implementations at different places that differ in a `const`, one is lost. -/
theorem not_forall_methods_perm_taken :
    ¬ ∀ text path : Text, ((parseSource text path).1.methods.map Method.asRead).Perm
      ((primaryPass text path).1 ++ (recoveryPass text path).1) := by
  intro h
  have hlength := (h constOverloads "Shape.cpp").length_eq
  revert hlength
  decide +kernel

end Sharpen
