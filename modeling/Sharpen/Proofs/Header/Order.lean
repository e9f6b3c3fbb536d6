import Mathlib.Data.List.Basic
import Sharpen.Proofs.Header.Steps

/-!
# The Order of Declarations

A header is read from its start to its end, and the methods of a type are taken as they come. This
module shows that they are therefore in the order of the text, whatever stands between them: every
step that takes a method goes on behind the place where the method starts.

The invariant has two parts, for the finished types and for the open one. The finished types have
their methods in order. Those of the open type are in order too and stand before the position at
which the reading goes on, so a method that is read next can be put behind them. Giving constants to
a type at the end leaves its methods alone.

## Main definitions

* `HeaderScan.Shows` — what a scan inside a type has read.
* `HeaderScan.Ordered` — the invariant: all methods so far are in order, and those of the open type
  stand before the position to go on from.
* `TypeDecl.positions` — where the methods of a type start, in the order of the type.

## Main results

* `HeaderScan.Inside.shows` — what one step inside a type can add.
* `positions_parseHeader` — the methods of every type of a header are in the order of the text.
* `HeaderScan.Ordered.step` — one step keeps the invariant.
* `HeaderScan.Ordered.loop` — the whole reading keeps the invariant.
-/

namespace Sharpen

/-- Where the methods of a type start, in the order of the type. -/
def TypeDecl.positions (d : TypeDecl) : List Nat :=
  d.methods.map Method.position

/-! ### What a step can add -/

/-- A method that is read starts where its declaration does, is no local function and has no
comments from a source. The forms of a declaration differ in the body only. -/
theorem untouched_methodDecl {stem owner masked text : Text} {visibility : Visibility}
    {position : Nat} {m : Method}
    (h : methodDecl stem owner visibility position masked text = .method m) :
    m.position = position ∧ m.isLocal = false ∧ m.sourceComments = [] := by
  obtain ⟨closing, name, before, -, -, ⟨-, rfl⟩ | rfl | ⟨body, indent, rfl⟩⟩ :=
    exists_of_methodDecl h
  all_goals exact ⟨rfl, rfl, rfl⟩

/-- A method that is read starts where its declaration does. -/
theorem position_methodDecl {stem owner masked text : Text} {visibility : Visibility}
    {position : Nat} {m : Method}
    (h : methodDecl stem owner visibility position masked text = .method m) :
    m.position = position :=
  (untouched_methodDecl h).1

/-- One more element with what all elements have. -/
theorem forall_mem_concat {α : Type} {P : α → Prop} {l : List α} {a : α} (h : ∀ b ∈ l, P b)
    (ha : P a) : ∀ b ∈ l ++ [a], P b :=
  List.forall_mem_append.mpr ⟨h, List.forall_mem_singleton.mpr ha⟩

/-- A change of one element that keeps what all elements have. -/
theorem forall_mem_modify {α : Type} {P : α → Prop} {f : α → α} {l : List α} (h : ∀ a ∈ l, P a)
    (hf : ∀ a, P a → P (f a)) (i : Nat) : ∀ a ∈ l.modify i f, P a := by
  intro a ha
  obtain ⟨j, hj⟩ := List.mem_iff_getElem?.mp ha
  rw [List.getElem?_modify] at hj
  obtain ⟨b, hb, rfl⟩ := Option.map_eq_some_iff.mp hj
  have hold := h b (List.mem_of_getElem? hb)
  split
  · exact hf b hold
  · exact hold

/-- Changing one element in something that does not matter leaves what matters. -/
theorem map_modify_eq {α β : Type} {f : α → β} {g : α → α} (h : ∀ a, f (g a) = f a) (l : List α)
    (i : Nat) : (l.modify i g).map f = l.map f := by
  refine List.ext_getElem? fun k => ?_
  rw [List.getElem?_map, List.getElem?_map, List.getElem?_modify]
  cases l[k]? with
  | none => rfl
  | some a => by_cases hk : i = k <;> simp [hk, h]

/-- Attaching the end of a region leaves every method where it is. -/
theorem positions_endRegion (o : OpenType) (marker : Text) :
    (o.endRegion marker).decl.positions = o.decl.positions := by
  rw [OpenType.endRegion]
  split
  · rfl
  · refine map_modify_eq ?_ _ _
    exact fun _ => rfl
  · rfl

/-- The finished types of a scan, and where the methods of the open type start. -/
def HeaderScan.Shows (s : HeaderScan) (types : List TypeDecl) (positions : List Nat) : Prop :=
  s.types = types ∧ s.current.map (·.decl.positions) = some positions

section

variable {s : HeaderScan} {o : OpenType}

/-- **What one step inside a type can add**: one method at most, which starts between the position
of the step and the one it leads to. -/
theorem HeaderScan.Inside.shows {page : Page} {pos next : Nat} {s' : HeaderScan}
    (h : s.Inside page o pos next s') (hs : s.current = some o) :
    s'.Shows s.types o.decl.positions ∨
      ∃ start, pos ≤ start ∧ start < next ∧ s'.Shows s.types (o.decl.positions ++ [start]) := by
  cases h with
  | blank | passed | ignored => exact Or.inl ⟨rfl, by simp [hs]⟩
  | regionStart | constant | label | member => exact Or.inl ⟨rfl, rfl⟩
  | regionEnd => exact Or.inl ⟨rfl, congrArg some (positions_endRegion o _)⟩
  | @method start _ _ m _ hpos _ hnext hread =>
      refine Or.inr ⟨start, hpos, hnext, rfl, ?_⟩
      simp [OpenType.addMethod, TypeDecl.positions, position_methodDecl hread]

/-- What a step outside types leaves: the finished types, and no method of an open one. -/
theorem HeaderScan.Outside.leaves {page : Page} {pos next : Nat} {s' : HeaderScan}
    (h : s.Outside page pos s' next) (hs : s.current = none) :
    s'.types = s.types ∧ ∀ o, s'.current = some o → o.decl.methods = [] := by
  cases h with
  | blank | constant | ignored | passed => exact ⟨rfl, by simp [hs]⟩
  | opens =>
      refine ⟨rfl, fun o ho => ?_⟩
      obtain rfl := Option.some.inj ho
      rfl

/-- A finished type has its methods where they were. -/
theorem positions_finished (o : OpenType) (name : Text) :
    (o.finished name).positions = o.decl.positions := by
  simp [OpenType.finished, TypeDecl.positions, ownedMethod, Function.comp_def]

end

/-! ### The whole header -/

/-- **The invariant of reading a header** up to position `pos`: the methods of every type are in the
order of the text, and those of the open type stand before `pos`. -/
structure HeaderScan.Ordered (s : HeaderScan) (pos : Nat) : Prop where
  finished : ∀ d ∈ s.types, d.positions.Pairwise (· < ·)
  current : ∀ o, s.current = some o → (o.decl.positions ++ [pos]).Pairwise (· < ·)

section

variable {s : HeaderScan} {pos : Nat}

/-- A list in order that ends before a position ends before every later one. -/
theorem pairwise_concat_of_le {l : List Nat} {i j : Nat} (h : (l ++ [i]).Pairwise (· < ·))
    (hij : i ≤ j) : (l ++ [j]).Pairwise (· < ·) := by
  simp only [List.pairwise_append, List.pairwise_singleton, List.mem_singleton, forall_eq,
    true_and] at h ⊢
  exact ⟨h.1, fun a ha => Nat.lt_of_lt_of_le (h.2 a ha) hij⟩

/-- One more element between the end of a list in order and a later position. -/
theorem pairwise_concat_concat {l : List Nat} {i j k : Nat} (h : (l ++ [i]).Pairwise (· < ·))
    (hij : i ≤ j) (hjk : j < k) : (l ++ [j] ++ [k]).Pairwise (· < ·) := by
  refine List.pairwise_append.mpr ⟨pairwise_concat_of_le h hij, List.pairwise_singleton _ _, ?_⟩
  intro a ha b hb
  obtain rfl := List.mem_singleton.mp hb
  rcases List.mem_append.mp ha with ha | ha
  · have hbefore := (List.pairwise_append.mp h).2.2 a ha i (List.mem_singleton_self _)
    omega
  · obtain rfl := List.mem_singleton.mp ha
    exact hjk

/-- Finishing the open type keeps the invariant. -/
theorem HeaderScan.Ordered.finishType {o : OpenType} (h : s.Ordered pos) (page : Page)
    (hs : s.current = some o) {closingName : Text}
    (hname : closingName = [] ∨ o.IsName page closingName) (next : Nat) :
    (finishType s o closingName).Ordered next := by
  obtain ⟨-, hclosed, htypes | ⟨name, -, htypes⟩⟩ := finishType_eq page s hname
  · exact ⟨htypes ▸ h.finished, by simp [hclosed]⟩
  · refine ⟨htypes ▸ forall_mem_concat h.finished ?_, by simp [hclosed]⟩
    rw [positions_finished]
    exact (List.pairwise_append.mp (h.current o hs)).1

/-- **One step keeps the invariant.** -/
theorem HeaderScan.Ordered.step (h : s.Ordered pos) {page : Page} {s' : HeaderScan} {next : Nat}
    (hstep : headerStep page s pos = (s', next)) : s'.Ordered (max pos next) := by
  rw [headerStep] at hstep
  split at hstep
  · rename_i hs
    have hmoves := outsideStep_outside page s pos
    rw [hstep] at hmoves
    obtain ⟨htypes, hopen⟩ := hmoves.leaves hs
    refine ⟨htypes ▸ h.finished, fun o ho => ?_⟩
    simp [TypeDecl.positions, hopen o ho]
  · rename_i o hs
    split at hstep
    · obtain ⟨closingName, hname, heq, -⟩ := closeType_spec page s o
      obtain rfl : Sharpen.finishType s o closingName = s' :=
        heq.symm.trans (congrArg Prod.fst hstep)
      exact h.finishType page hs hname _
    · have horder := h.current o hs
      obtain ⟨-, hinside⟩ := insideStep_spec page s o pos
      rw [hstep] at hinside
      rcases hinside.shows hs with ⟨htypes, hpositions⟩ | ⟨start, hle, hlt, htypes, hpositions⟩
      · refine ⟨htypes ▸ h.finished, fun o' ho' => ?_⟩
        rw [ho', Option.map_some, Option.some.injEq] at hpositions
        rw [hpositions]
        exact pairwise_concat_of_le horder (Nat.le_max_left _ _)
      · refine ⟨htypes ▸ h.finished, fun o' ho' => ?_⟩
        rw [ho', Option.map_some, Option.some.injEq] at hpositions
        rw [hpositions]
        exact pairwise_concat_concat horder hle (by omega)

/-- **The whole reading keeps the invariant.** -/
theorem HeaderScan.Ordered.loop (page : Page) (h : s.Ordered pos) :
    ∃ stop, (headerLoop page s pos).Ordered stop := by
  fun_induction headerLoop page s pos with
  | case1 s pos hpos s' next hstep hlt ih =>
      exact ih (Nat.max_eq_right (Nat.le_of_lt hlt) ▸ h.step hstep)
  | case2 s pos hpos s' next hstep hlt => exact ⟨_, h.step hstep⟩
  | case3 s pos hpos => exact ⟨pos, h⟩

/-- Finishing a type whose closing brace is missing keeps the invariant. -/
theorem HeaderScan.Ordered.finishOpenType (h : s.Ordered pos) (page : Page) :
    (finishOpenType s).Ordered pos := by
  rw [Sharpen.finishOpenType]
  split
  · exact h
  · rename_i o hs
    have hreport : (s.report (.missingBrace o.decl.name)).Ordered pos := ⟨h.finished, h.current⟩
    exact hreport.finishType page hs (Or.inl rfl) _

end

/-- **The methods of every type of a header are in the order of the text**, for all texts. Giving
the constants of the file to a type leaves every method where it is. -/
theorem positions_parseHeader {text path : Text} {d : TypeDecl}
    (hd : d ∈ (parseHeader text path).1.types) : d.positions.Pairwise (· < ·) := by
  have hstart : HeaderScan.Ordered
      { claimed := (bannerComments (Page.ofText text path).lines).claimed } 0 :=
    ⟨by simp, by simp⟩
  obtain ⟨stop, hloop⟩ := hstart.loop (Page.ofText text path)
  have hfinal := (hloop.finishOpenType (Page.ofText text path)).finished
  have hpositions : ∀ {types : List TypeDecl} {owner : Nat} {constants : List Constant},
      d ∈ assignConstants types owner constants → ∃ d' ∈ types, d'.positions = d.positions := by
    intro types owner constants hd
    have hmem := List.mem_map_of_mem (f := TypeDecl.positions) hd
    rw [assignConstants, map_modify_eq ?_] at hmem
    · exact List.mem_map.mp hmem
    · exact fun _ => rfl
  rw [parseHeader, readHeader] at hd
  dsimp only at hd
  split at hd
  · obtain ⟨d', hd', heq⟩ := hpositions hd
    exact heq ▸ hfinal d' hd'
  · split at hd
    · exact hfinal d hd
    · exact hfinal d hd

end Sharpen
