import Mathlib.Data.List.Induction
import Mathlib.Data.List.Sort
import Mathlib.Tactic.Common
import Sharpen.Proofs.Source.Readings

/-!
# Regions of a Source

Every line of a source file that opens a region is attached to the first method behind it, and every
line that closes one to the last method before it. A method keeps one opening and one closing
marker, so of the markers that come to one method only the last stays, and those without a method
are lost. This module says what becomes of the markers when the methods are listed in textual order.

The methods in textual order are recovered from the two lists of a source, since the order by
position is the same before and after local functions are listed apart. The gaps between methods are
numbered, and a marker is attached by the number of its gap. Then the row of markers is a row of
numbers, with at most one opening and one closing at each method, and whether it is well nested can
be told by counting.

## Main definitions

* `openRegions`, `WellNested` — rows of markers, and those in which every region is closed.
* `RegionLine.gap` — between which methods a marker stands.
* `Source.inOrder`, `Source.regionRow` — the methods in textual order, and their markers.
* `markers` — the markers of an element that opens a region, closes one, or both.
* `RegionLine.opensBefore` — a marker opens a region directly before method `i`.

## Main results

* `foldl_attachRegion` — every method takes its markers on its own.
* `sortByPosition_filter_append` — the textual order is found again from the two lists of a source.
* `wellNested_regionRow_iff` — when the markers of the methods are well nested.
* `openRegions_flatMap_markers` — counting is enough: a row in which every element has at most one
  opening marker and one closing marker behind it can be read to its end if and only if no beginning
  of it closes more regions than are open.
* `exists_attachRegions_parseSource` — how a source is put together: the implementations and local
  functions that are found get region markers in the order of their positions, and are listed apart.
* `regionRow_parseSource` — the markers of the methods of a source, in textual order: a method has
  an opening marker if one stands directly before it, and a closing one if one stands directly
  behind it.
* `mem_places_iff` — the places that are taken are those of the markers, if each has a method.
* `flatMap_markers_eq_map_opens` — markers that keep apart are all kept, in their order: each of
  them has a method to which it is attached, and stands in an earlier gap between methods than those
  behind it, or closes a region in the gap in which the next one opens.
-/

namespace Sharpen

/-! ### Rows of markers -/

/-- How many regions are open behind a row of markers, of which `true` opens a region and `false`
closes one, if `depth` are open before it; none if the row closes one that is not open. -/
def openRegions : (depth : Nat) → List Bool → Option Nat
  | depth, [] => some depth
  | depth, true :: row => openRegions (depth + 1) row
  | 0, false :: _ => none
  | depth + 1, false :: row => openRegions depth row

/-- A row of markers that closes every region it opens, and no other. -/
def WellNested (row : List Bool) : Prop :=
  openRegions 0 row = some 0

instance (row : List Bool) : Decidable (WellNested row) :=
  inferInstanceAs (Decidable (openRegions 0 row = some 0))

/-- The markers of an element that opens a region, closes one, or both. -/
def markers (opens closes : Bool) : List Bool :=
  (if opens then [true] else []) ++ if closes then [false] else []

/-- Reading the markers of one element. -/
theorem openRegions_markers_append (opens closes : Bool) (row : List Bool) (depth : Nat) :
    openRegions depth (markers opens closes ++ row) =
      if closes.toNat ≤ depth + opens.toNat then
        openRegions (depth + opens.toNat - closes.toNat) row
      else none := by
  cases opens with
  | true => cases closes <;> simp [markers, openRegions]
  | false => cases closes <;> cases depth <;> simp [markers, openRegions]

/-- **Counting is enough**: a row in which every element has at most one opening marker and one
closing marker behind it can be read to its end if and only if no beginning of it closes more
regions than are open. Every beginning but the empty one has the first element. -/
theorem openRegions_flatMap_markers {α : Type} (opens closes : α → Bool) (row : List α)
    (depth left : Nat) :
    openRegions depth (row.flatMap fun a => markers (opens a) (closes a)) = some left ↔
      (∀ k ≤ row.length, (row.take k).countP closes ≤ depth + (row.take k).countP opens) ∧
        depth + row.countP opens = left + row.countP closes := by
  induction row generalizing depth with
  | nil => simp [openRegions]
  | cons a row ih =>
      have hbeginnings : ∀ P : Nat → Prop, P 0 →
          ((∀ k ≤ (a :: row).length, P k) ↔ ∀ k ≤ row.length, P (k + 1)) := by
        intro P hzero
        refine ⟨fun h k hk => h (k + 1) (Nat.succ_le_succ hk), fun h k hk => ?_⟩
        cases k with
        | zero => exact hzero
        | succ k => exact h k (Nat.le_of_succ_le_succ hk)
      have hcount : ∀ (p : α → Bool) (l : List α),
          (a :: l).countP p = (p a).toNat + l.countP p := by
        intro p l
        cases hp : p a <;> simp [hp, Nat.add_comm]
      rw [hbeginnings _ (by simp), List.flatMap_cons, openRegions_markers_append]
      simp only [List.take_succ_cons, hcount]
      split
      case isTrue hle =>
        rw [ih]
        refine and_congr (forall_congr' fun k => imp_congr_right fun _ => ?_) ?_ <;> omega
      case isFalse hlt =>
        refine ⟨fun h => by simp at h, fun h => absurd (h.1 0 (Nat.zero_le _)) ?_⟩
        simpa using hlt

/-! ### Where markers stand -/

/-- The gap that a marker stands in, as the number of methods before it. A method that starts where
the marker does counts as none that an opening marker stands before, nor a closing one behind. -/
def RegionLine.gap (r : RegionLine) (positions : List Nat) : Nat :=
  positions.countP fun p => if r.opens then p ≤ r.start else p < r.start

/-- A marker opens a region directly before method `i`. -/
def RegionLine.opensBefore (r : RegionLine) (positions : List Nat) (i : Nat) : Bool :=
  r.opens && r.gap positions == i

/-- A marker closes a region directly behind method `i`. -/
def RegionLine.closesBehind (r : RegionLine) (positions : List Nat) (i : Nat) : Bool :=
  !r.opens && r.gap positions == i + 1

/-- Method `i` with a marker, if it is attached to it. -/
def Method.mark (page : SourcePage) (positions : List Nat) (i : Nat) (m : Method)
    (r : RegionLine) : Method :=
  if r.opensBefore positions i then { m with sourceRegionStart := r.marker page }
  else if r.closesBehind positions i then { m with sourceRegionEnd := r.marker page }
  else m

/-- Among ordered positions, the first one behind a place is found by counting. -/
theorem findIdx?_position {methods : List Method}
    (hsorted : methods.Pairwise fun a b => a.position ≤ b.position) (start i : Nat) :
    (methods.findIdx? fun m => start < m.position) = some i ↔
      i < methods.length ∧ (methods.map Method.position).countP (· ≤ start) = i := by
  induction methods generalizing i with
  | nil => simp
  | cons m methods ih =>
      rw [List.pairwise_cons] at hsorted
      rw [List.findIdx?_cons, List.map_cons, List.length_cons]
      by_cases hm : start < m.position
      · have hnone : (methods.map Method.position).countP (· ≤ start) = 0 := by
          refine List.countP_eq_zero.mpr fun p hp => ?_
          obtain ⟨k, hk, rfl⟩ := List.mem_map.mp hp
          have hle := hsorted.1 k hk
          simp only [decide_eq_true_eq]
          omega
        rw [List.countP_cons_of_neg (by simpa using hm), hnone]
        simp only [hm, decide_true, if_true, Option.some.injEq]
        omega
      · rw [List.countP_cons_of_pos (by simpa using hm)]
        simp only [hm, decide_false, Bool.false_eq_true, if_false, Option.map_eq_some_iff]
        constructor
        · rintro ⟨j, hj, rfl⟩
          obtain ⟨hlt, rfl⟩ := (ih hsorted.2 j).mp hj
          exact ⟨Nat.succ_lt_succ hlt, rfl⟩
        · rintro ⟨hlt, rfl⟩
          exact ⟨_, (ih hsorted.2 _).mpr ⟨Nat.lt_of_succ_lt_succ hlt, rfl⟩, rfl⟩

/-- Among ordered positions, the last one before a place is found by counting. -/
theorem lastBelow?_position {methods : List Method}
    (hsorted : methods.Pairwise fun a b => a.position ≤ b.position) (start i : Nat) :
    lastBelow? (fun j => methods[j]?.any (·.position < start)) methods.length = some i ↔
      (methods.map Method.position).countP (· < start) = i + 1 := by
  induction methods using List.reverseRecOn with
  | nil => simp [lastBelow?]
  | append_singleton methods m ih =>
      rw [List.pairwise_append] at hsorted
      have hbefore : lastBelow? (fun j => (methods ++ [m])[j]?.any (·.position < start))
          methods.length
          = lastBelow? (fun j => methods[j]?.any (·.position < start)) methods.length := by
        refine lastBelow?_congr fun j hj => ?_
        rw [List.getElem?_append_left hj]
      rw [List.length_append, List.length_singleton, lastBelow?, hbefore, List.map_append,
        List.countP_append, List.map_singleton, List.countP_singleton]
      by_cases hm : m.position < start
      · have hall : (methods.map Method.position).countP (· < start) = methods.length := by
          rw [List.countP_eq_length.mpr, List.length_map]
          intro p hp
          obtain ⟨k, hk, rfl⟩ := List.mem_map.mp hp
          have hle := hsorted.2.2 k hk m List.mem_cons_self
          simp only [decide_eq_true_eq]
          omega
        simp [hm, hall]
      · simpa [hm] using ih hsorted.1

/-- One marker, seen from the methods: each decides on its own whether the marker is attached to it.
Attached to the method at a place, if there is one, the marker changes just that method. -/
theorem attachRegion_eq_mapIdx (page : SourcePage) {methods : List Method}
    (hsorted : methods.Pairwise fun a b => a.position ≤ b.position) (r : RegionLine) :
    attachRegion page methods r =
      methods.mapIdx fun i m => m.mark page (methods.map Method.position) i r := by
  have hmodify : ∀ (found : Option Nat) (f : Method → Method),
      (∀ i < methods.length, ∀ m,
        (if found = some i then f m else m) = m.mark page (methods.map Method.position) i r) →
      found.elim methods (fun i => methods.modify i f) =
      methods.mapIdx fun i m => m.mark page (methods.map Method.position) i r := by
    intro found f h
    refine List.ext_getElem? fun j => ?_
    rw [List.getElem?_mapIdx]
    cases hj : methods[j]? with
    | none => cases found <;> simp [List.getElem?_modify, hj]
    | some m =>
        rw [Option.map_some, ← h j (List.getElem?_eq_some_iff.mp hj).1 m]
        cases found <;> simp [List.getElem?_modify, hj]
  rw [attachRegion_eq]
  split
  · rename_i hopens
    refine hmodify _ _ fun i hi m => ?_
    simp [findIdx?_position hsorted, hi, Method.mark, RegionLine.opensBefore,
      RegionLine.closesBehind, RegionLine.gap, hopens]
  · rename_i hopens
    refine hmodify _ _ fun i hi m => ?_
    simp [lastBelow?_position hsorted, Method.mark, RegionLine.opensBefore,
      RegionLine.closesBehind, RegionLine.gap, hopens]

/-- A marker changes neither where a method stands nor whose it is. -/
theorem Method.mark_same (page : SourcePage) (positions : List Nat) (i : Nat) (m : Method)
    (r : RegionLine) : (m.mark page positions i r).position = m.position ∧
      (m.mark page positions i r).isLocal = m.isLocal := by
  rw [Method.mark]
  split
  · exact ⟨rfl, rfl⟩
  · split <;> exact ⟨rfl, rfl⟩

/-- **Every method takes its markers on its own**, one after the other. -/
theorem foldl_attachRegion (page : SourcePage) {methods : List Method}
    (hsorted : methods.Pairwise fun a b => a.position ≤ b.position) (lines : List RegionLine) :
    lines.foldl (attachRegion page) methods = methods.mapIdx fun i m =>
      lines.foldl (Method.mark page (methods.map Method.position) i) m := by
  induction lines generalizing methods with
  | nil => exact List.ext_getElem? fun j => by simp
  | cons r lines ih =>
      have hpositions : (attachRegion page methods r).map Method.position
          = methods.map Method.position := by
        rw [attachRegion_eq_mapIdx page hsorted]
        refine List.ext_getElem (by simp) fun j hj hj' => ?_
        simpa using (Method.mark_same page _ j _ r).1
      have hsorted' : (attachRegion page methods r).Pairwise
          fun a b => a.position ≤ b.position := by
        rw [← List.pairwise_map (R := (· ≤ ·)), hpositions, List.pairwise_map]
        exact hsorted
      rw [List.foldl_cons, ih hsorted', hpositions, attachRegion_eq_mapIdx page hsorted,
        List.mapIdx_mapIdx]
      rfl

/-- What becomes of one method: it stays where it is, and has a marker if one comes to it. -/
theorem Method.foldl_mark (page : SourcePage) (positions : List Nat) (i : Nat) (m : Method)
    (lines : List RegionLine) :
    let marked := lines.foldl (Method.mark page positions i) m
    marked.position = m.position ∧ marked.isLocal = m.isLocal ∧
      marked.sourceRegionStart.isEmpty =
        (m.sourceRegionStart.isEmpty && !lines.any (·.opensBefore positions i)) ∧
      marked.sourceRegionEnd.isEmpty =
        (m.sourceRegionEnd.isEmpty && !lines.any (·.closesBehind positions i)) := by
  induction lines generalizing m with
  | nil => simp
  | cons r lines ih =>
      obtain ⟨hposition, hlocal, hstart, hend⟩ := ih (m.mark page positions i r)
      obtain ⟨hposition', hlocal'⟩ := m.mark_same page positions i r
      have hmarker : (r.marker page).isEmpty = false := by
        simp only [RegionLine.marker]
        split <;> rfl
      refine ⟨hposition.trans hposition', hlocal.trans hlocal', ?_, ?_⟩
      · rw [List.foldl_cons, hstart, List.any_cons, Method.mark]
        split
        · simp_all
        · split <;> simp_all
      · rw [List.foldl_cons, hend, List.any_cons, Method.mark]
        split
        · simp_all [RegionLine.opensBefore, RegionLine.closesBehind]
        · split <;> simp_all

/-- Markers leave every method its place and its kind. -/
theorem map_attachRegions (page : SourcePage) {methods : List Method}
    (hsorted : methods.Pairwise fun a b => a.position ≤ b.position) :
    ((attachRegions page methods).map fun m => (m.position, m.isLocal)) =
      methods.map fun m => (m.position, m.isLocal) := by
  rw [attachRegions, foldl_attachRegion page hsorted]
  refine List.ext_getElem (by simp) fun i hi hi' => ?_
  rw [List.length_map] at hi'
  obtain ⟨hposition, hlocal, -⟩ := Method.foldl_mark page (methods.map Method.position) i methods[i]
    page.regionLines
  simpa using ⟨hposition, hlocal⟩

/-! ### Textual order -/

/-- The methods and local functions of a source in textual order. -/
def Source.inOrder (s : Source) : List Method :=
  sortByPosition (s.methods ++ s.locals)

/-- The row of region markers of a method: its opening marker, then its closing one. -/
def Method.regionRow (m : Method) : List Bool :=
  markers (!m.sourceRegionStart.isEmpty) (!m.sourceRegionEnd.isEmpty)

/-- The region markers of the methods and local functions of a source, in textual order. -/
def Source.regionRow (s : Source) : List Bool :=
  s.inOrder.flatMap Method.regionRow

/-- Sorted methods are in the order of their positions. -/
theorem pairwise_sortByPosition (methods : List Method) :
    (sortByPosition methods).Pairwise fun a b => a.position ≤ b.position := by
  have hsorted : (sortByPosition methods).Pairwise fun a b =>
      decide (a.position ≤ b.position) = true := by
    refine List.pairwise_mergeSort (fun _ _ _ hab hbc => ?_) (fun _ _ => ?_) methods
    · simp only [decide_eq_true_eq] at *
      omega
    · simp only [Bool.or_eq_true, decide_eq_true_eq]
      omega
  simpa using hsorted

/-- Sorting leaves methods of one position in their order. -/
theorem filter_sortByPosition (methods : List Method) (p : Nat) :
    (sortByPosition methods).filter (·.position == p) = methods.filter (·.position == p) := by
  have hkept : (methods.filter (·.position == p)).Sublist (sortByPosition methods) := by
    refine List.sublist_mergeSort (fun _ _ _ hab hbc => ?_) (fun _ _ => ?_) ?_ List.filter_sublist
    · simp only [decide_eq_true_eq] at *
      omega
    · simp only [Bool.or_eq_true, decide_eq_true_eq]
      omega
    · refine List.pairwise_of_forall_mem_list fun a ha b hb => ?_
      have hposition : a.position = p := by simpa using (List.mem_filter.mp ha).2
      have hposition' : b.position = p := by simpa using (List.mem_filter.mp hb).2
      simp [hposition, hposition']
  have hsub := hkept.filter (·.position == p)
  rw [List.filter_filter] at hsub
  simp only [Bool.and_self] at hsub
  exact (hsub.eq_of_length (((List.mergeSort_perm methods _).filter _).length_eq.symm)).symm

/-- Ordered lists with the same methods at every position are the same. -/
theorem eq_of_filter_position_eq {l l' : List Method}
    (hsorted : l.Pairwise fun a b => a.position ≤ b.position)
    (hsorted' : l'.Pairwise fun a b => a.position ≤ b.position)
    (h : ∀ p, l.filter (·.position == p) = l'.filter (·.position == p)) : l = l' := by
  induction l generalizing l' with
  | nil =>
      cases l' with
      | nil => rfl
      | cons b l' => simpa using h b.position
  | cons a l ih =>
      cases l' with
      | nil => simpa using h a.position
      | cons b l' =>
          rw [List.pairwise_cons] at hsorted hsorted'
          have hmem : ∀ c, c ∈ a :: l ↔ c ∈ b :: l' := by
            intro c
            have hc := congrArg (c ∈ ·) (h c.position)
            simpa [List.mem_filter] using hc
          have hposition : a.position = b.position := by
            have hle : a.position ≤ b.position := by
              rcases List.mem_cons.mp ((hmem b).mpr List.mem_cons_self) with rfl | hb
              · exact Nat.le_refl _
              · exact hsorted.1 b hb
            have hge : b.position ≤ a.position := by
              rcases List.mem_cons.mp ((hmem a).mp List.mem_cons_self) with rfl | ha
              · exact Nat.le_refl _
              · exact hsorted'.1 a ha
            exact Nat.le_antisymm hle hge
          have hhead := h a.position
          rw [List.filter_cons_of_pos (by simp), List.filter_cons_of_pos (by simp [hposition])]
            at hhead
          obtain rfl : a = b := (List.cons.inj hhead).1
          refine congrArg (a :: ·) (ih hsorted.2 hsorted'.2 fun p => ?_)
          by_cases hp : a.position = p
          · subst hp
            exact (List.cons.inj hhead).2
          · have hp' := h p
            rwa [List.filter_cons_of_neg (by simpa using hp),
              List.filter_cons_of_neg (by simpa using hp)] at hp'

/-- Methods of which no local function stands before another one, taken apart and put together. -/
theorem filter_append_filter_isLocal {l : List Method}
    (h : l.Pairwise fun a b => a.isLocal = true → b.isLocal = true) :
    l.filter (fun m => !m.isLocal) ++ l.filter Method.isLocal = l := by
  induction l with
  | nil => rfl
  | cons a l ih =>
      rw [List.pairwise_cons] at h
      cases ha : a.isLocal with
      | false => simp [ha, ih h.2]
      | true =>
          have hlocal : ∀ m ∈ l, m.isLocal = true := fun m hm => h.1 m hm ha
          have hothers : l.filter (fun m => !m.isLocal) = [] :=
            List.filter_eq_nil_iff.mpr fun m hm => by simp [hlocal m hm]
          simp [ha, hothers, List.filter_eq_self.mpr hlocal]

/-- **The textual order is found again** from the implementations and the local functions of a
source, also where two of them have one position. -/
theorem sortByPosition_filter_append {placed : List Method}
    (hsorted : placed.Pairwise fun a b => a.position ≤ b.position)
    (hties : placed.Pairwise fun a b =>
      a.position = b.position → a.isLocal = true → b.isLocal = true) :
    sortByPosition (placed.filter (fun m => !m.isLocal) ++ placed.filter Method.isLocal)
      = placed := by
  refine eq_of_filter_position_eq (pairwise_sortByPosition _) hsorted fun p => ?_
  have hat : (placed.filter (·.position == p)).Pairwise
      fun a b => a.isLocal = true → b.isLocal = true := by
    refine List.pairwise_filter.mpr (hties.imp fun h ha hb => h ?_)
    rw [beq_iff_eq.mp ha, beq_iff_eq.mp hb]
  rw [filter_sortByPosition, List.filter_append, List.filter_filter, List.filter_filter]
  conv_rhs => rw [← filter_append_filter_isLocal hat, List.filter_filter, List.filter_filter]
  simp only [Bool.and_comm]

/-- Where implementations are listed before local functions, sorting keeps them so at every
position. -/
theorem pairwise_isLocal_sortByPosition {methods locals : List Method}
    (hmethods : ∀ m ∈ methods, m.isLocal = false) (hlocals : ∀ m ∈ locals, m.isLocal = true) :
    (sortByPosition (methods ++ locals)).Pairwise fun a b =>
      a.position = b.position → a.isLocal = true → b.isLocal = true := by
  refine List.pairwise_iff_forall_sublist.mpr fun {a b} hab hposition => ?_
  have hboth : (methods ++ locals).Pairwise fun a b => a.isLocal = true → b.isLocal = true := by
    refine List.pairwise_append.mpr ⟨?_, ?_, fun _ _ b hb _ => hlocals b hb⟩
    · refine List.pairwise_of_forall_mem_list fun a ha _ _ hlocal => ?_
      simp [hmethods a ha] at hlocal
    · exact List.pairwise_of_forall_mem_list fun _ _ b hb _ => hlocals b hb
  have hat := hab.filter (·.position == a.position)
  rw [filter_sortByPosition] at hat
  rw [List.filter_cons_of_pos (by simp), List.filter_cons_of_pos (by simp [hposition]),
    List.filter_nil] at hat
  exact List.pairwise_iff_forall_sublist.mp hboth (hat.trans List.filter_sublist)

/-! ### The markers of a source -/

/-- No region marker is attached to a method. -/
def Method.IsUnmarked (m : Method) : Prop :=
  m.sourceRegionStart = [] ∧ m.sourceRegionEnd = []

/-- **How a source is put together**: the implementations and local functions that are found get
region markers in the order of their positions, and are listed apart. Numbers say nothing about
marks. -/
theorem exists_attachRegions_parseSource (text path : Text) :
    ∃ methods locals : List Method,
      (∀ m ∈ methods, m.isLocal = false ∧ m.IsUnmarked) ∧
      (∀ m ∈ locals, m.isLocal = true ∧ m.IsUnmarked) ∧
      (let placed := attachRegions (SourcePage.ofText text path)
        (sortByPosition (methods ++ locals))
      (parseSource text path).1.methods = placed.filter (fun m => !m.isLocal) ∧
        (parseSource text path).1.locals = placed.filter Method.isLocal) := by
  have hnumber : ∀ {P : Method → Prop} {methods : List Method} (f : Nat → Nat),
      (∀ m n, P m → P { m with order := n }) → (∀ m ∈ methods, P m) →
      ∀ m ∈ methods.mapIdx fun i m => { m with order := f i }, P m := by
    intro P methods f hP h m hm
    obtain ⟨i, hi, rfl⟩ := List.mem_mapIdx.mp hm
    exact hP _ _ (h _ (List.getElem_mem hi))
  have hmethods : ∀ {primary recovered : List Method},
      (∀ m ∈ primary, m.isLocal = false ∧ m.IsUnmarked) →
      (∀ m ∈ recovered, m.isLocal = false ∧ m.IsUnmarked) →
      ∀ m ∈ addUnseen primary recovered, m.isLocal = false ∧ m.IsUnmarked :=
    Readable.forall_mem_addUnseen
  rw [parseSource]
  simp only [numberMethods, List.mapIdx_append]
  refine ⟨_, _, hnumber _ (fun _ _ h => h) (hmethods ?_ ?_), hnumber _ (fun _ _ h => h) ?_,
    rfl, rfl⟩
  · refine List.foldlRecOn (motive := fun acc : List Method × SourceScan => ∀ m ∈ acc.1,
      m.isLocal = false ∧ m.IsUnmarked) _ _ (by simp) fun acc h m hm => ?_
    exact Readable.takeImplementation (fun _ _ _ => ⟨rfl, rfl, rfl⟩) h hm
  · refine List.foldlRecOn (motive := fun acc : List Method × SourceScan => ∀ m ∈ acc.1,
      m.isLocal = false ∧ m.IsUnmarked) _ _ (by simp) fun acc h m hm => ?_
    exact Readable.recoverImplementation (fun _ _ _ => ⟨rfl, rfl, rfl⟩) h hm
  · refine List.foldlRecOn (motive := fun found => ∀ m ∈ FoundFunctions.locals found,
      m.isLocal = true ∧ m.IsUnmarked) _ _ (by simp) fun found h m hm => ?_
    exact Readable.takeFreeFunction (fun _ _ _ => ⟨rfl, rfl, rfl⟩) h hm

/-- The methods of a source in textual order are methods without markers, ordered by position, to
which the markers have been attached. Both orders are about places and kinds, which the markers
leave. -/
theorem exists_inOrder_parseSource (text path : Text) :
    ∃ methods : List Method, methods.Pairwise (fun a b => a.position ≤ b.position) ∧
      (∀ m ∈ methods, m.IsUnmarked) ∧
      (parseSource text path).1.inOrder
        = attachRegions (SourcePage.ofText text path) methods := by
  obtain ⟨methods, locals, hmethods, hlocals, hparts, hparts'⟩ :=
    exists_attachRegions_parseSource text path
  have hsorted := pairwise_sortByPosition (methods ++ locals)
  refine ⟨sortByPosition (methods ++ locals), hsorted, fun m hm => ?_, ?_⟩
  · rcases List.mem_append.mp (List.mem_mergeSort.mp hm) with hm | hm
    · exact (hmethods m hm).2
    · exact (hlocals m hm).2
  · have hties := pairwise_isLocal_sortByPosition (fun m hm => (hmethods m hm).1)
      fun m hm => (hlocals m hm).1
    have hsame := map_attachRegions (SourcePage.ofText text path) hsorted
    rw [Source.inOrder, hparts, hparts']
    refine sortByPosition_filter_append ?_ ?_
    · refine (List.pairwise_map (f := fun m : Method => (m.position, m.isLocal))
        (R := fun a b => a.1 ≤ b.1)).mp ?_
      rw [hsame]
      exact List.pairwise_map.mpr hsorted
    · refine (List.pairwise_map (f := fun m : Method => (m.position, m.isLocal))
        (R := fun a b => a.1 = b.1 → a.2 = true → b.2 = true)).mp ?_
      rw [hsame]
      exact List.pairwise_map.mpr hties

/-- **The markers of the methods of a source**, in textual order: a method has an opening marker if
one stands directly before it, and a closing one if one stands directly behind it. -/
theorem regionRow_parseSource (text path : Text) :
    let s := (parseSource text path).1
    let lines := (SourcePage.ofText text path).regionLines
    let positions := s.inOrder.map Method.position
    s.regionRow = (List.range positions.length).flatMap fun i =>
      markers (lines.any (·.opensBefore positions i)) (lines.any (·.closesBehind positions i)) := by
  obtain ⟨methods, hsorted, hunmarked, horder⟩ := exists_inOrder_parseSource text path
  have hpositions : (parseSource text path).1.inOrder.map Method.position
      = methods.map Method.position := by
    have hsame := congrArg (List.map Prod.fst)
      (map_attachRegions (SourcePage.ofText text path) hsorted)
    rw [List.map_map, List.map_map, ← horder] at hsame
    exact hsame
  dsimp only
  rw [Source.regionRow, hpositions, horder, attachRegions, foldl_attachRegion _ hsorted,
    ← SourcePage.regionLines, List.flatMap_def, List.flatMap_def]
  refine congrArg List.flatten (List.ext_getElem (by simp) fun i hi hi' => ?_)
  rw [List.length_map, List.length_mapIdx] at hi
  obtain ⟨hstart, hend⟩ := hunmarked _ (List.getElem_mem hi)
  obtain ⟨-, -, hstart', hend'⟩ := Method.foldl_mark (SourcePage.ofText text path)
    (methods.map Method.position) i methods[i] (SourcePage.ofText text path).regionLines
  simp [Method.regionRow, hstart', hend', hstart, hend]

/-! ### When regions stay closed -/

/-- The markers of elements that are numbered from zero on, as a row of places of which each
element has two. -/
theorem flatMap_markers_range (opened closed : Nat → Bool) (n : Nat) :
    ((List.range n).flatMap fun i => markers (opened i) (closed i)) =
      ((List.range (2 * n)).filter fun j =>
        if j % 2 = 0 then opened (j / 2) else closed (j / 2)).map (· % 2 == 0) := by
  induction n with
  | zero => rfl
  | succ n ih =>
      have heven : (2 * n) % 2 = 0 ∧ (2 * n) / 2 = n := by omega
      have hodd : (2 * n + 1) % 2 = 1 ∧ (2 * n + 1) / 2 = n := by omega
      rw [show 2 * (n + 1) = 2 * n + 1 + 1 by omega, List.range_succ, List.range_succ,
        List.range_succ, List.flatMap_append, ih, List.append_assoc, List.filter_append,
        List.map_append]
      congr 1
      cases hopened : opened n <;> cases hclosed : closed n <;>
        simp [markers, heven, hodd, hopened, hclosed]

/-- The place of a marker in the row of all markers of the methods. -/
def RegionLine.place (r : RegionLine) (positions : List Nat) : Nat :=
  if r.opens then 2 * r.gap positions else 2 * r.gap positions - 1

/-- A marker with a method it is attached to. -/
def RegionLine.HasMethod (r : RegionLine) (positions : List Nat) : Prop :=
  if r.opens then r.gap positions < positions.length else 0 < r.gap positions

/-- **The places that are taken** are those of the markers, if each has a method. -/
theorem mem_places_iff {positions : List Nat} {lines : List RegionLine}
    (hkept : ∀ r ∈ lines, r.HasMethod positions) (j : Nat) :
    (j < 2 * positions.length ∧ (if j % 2 = 0 then lines.any (·.opensBefore positions (j / 2))
      else lines.any (·.closesBehind positions (j / 2))) = true) ↔
      ∃ r ∈ lines, r.place positions = j := by
  constructor
  · rintro ⟨hj, hmarked⟩
    split at hmarked
    · obtain ⟨r, hr, hopens⟩ := List.any_eq_true.mp hmarked
      simp only [RegionLine.opensBefore, Bool.and_eq_true, beq_iff_eq] at hopens
      refine ⟨r, hr, ?_⟩
      rw [RegionLine.place, if_pos hopens.1]
      omega
    · obtain ⟨r, hr, hcloses⟩ := List.any_eq_true.mp hmarked
      simp only [RegionLine.closesBehind, Bool.and_eq_true, Bool.not_eq_true', beq_iff_eq]
        at hcloses
      refine ⟨r, hr, ?_⟩
      rw [RegionLine.place, if_neg (by simp [hcloses.1])]
      omega
  · rintro ⟨r, hr, rfl⟩
    have hgap : r.gap positions ≤ positions.length := List.countP_le_length
    have hr' := hkept r hr
    rw [RegionLine.HasMethod] at hr'
    cases hopens : r.opens with
    | true =>
        rw [hopens, if_pos rfl] at hr'
        rw [RegionLine.place, if_pos hopens]
        refine ⟨by omega, ?_⟩
        rw [if_pos (by omega)]
        refine List.any_eq_true.mpr ⟨r, hr, ?_⟩
        simp [RegionLine.opensBefore, hopens]
    | false =>
        rw [hopens, if_neg (by simp)] at hr'
        rw [RegionLine.place, if_neg (by simp [hopens])]
        refine ⟨by omega, ?_⟩
        rw [if_neg (by omega)]
        refine List.any_eq_true.mpr ⟨r, hr, ?_⟩
        simp only [RegionLine.closesBehind, hopens, Bool.not_false, Bool.true_and, beq_iff_eq]
        omega

/-- **Markers that keep apart are all kept**, in their order: each of them has a method to which it
is attached, and stands in an earlier gap between methods than those behind it, or closes a region
in the gap in which the next one opens. Two rows of places that are in order agree if they have the
same places. -/
theorem flatMap_markers_eq_map_opens {positions : List Nat} {lines : List RegionLine}
    (hkept : ∀ r ∈ lines, r.HasMethod positions)
    (hapart : lines.Pairwise fun r r' => r.gap positions < r'.gap positions ∨
      r.gap positions = r'.gap positions ∧ r.opens = false ∧ r'.opens = true) :
    ((List.range positions.length).flatMap fun i => markers
      (lines.any (·.opensBefore positions i)) (lines.any (·.closesBehind positions i))) =
      lines.map (·.opens) := by
  have hplaces : (lines.map (·.place positions)).Pairwise (· < ·) := by
    refine List.pairwise_map.mpr (hapart.imp_of_mem fun {r r'} hr hr' h => ?_)
    have hr := hkept r hr
    have hr' := hkept r' hr'
    rw [RegionLine.HasMethod] at hr hr'
    rw [RegionLine.place, RegionLine.place]
    grind
  have hparity : ∀ r ∈ lines, (r.place positions % 2 == 0) = r.opens := by
    intro r hr
    have hr := hkept r hr
    rw [RegionLine.HasMethod] at hr
    rw [RegionLine.place]
    cases hopens : r.opens <;> simp [hopens] at hr ⊢
    omega
  have hrow : ((List.range (2 * positions.length)).filter fun j =>
      if j % 2 = 0 then lines.any (·.opensBefore positions (j / 2))
      else lines.any (·.closesBehind positions (j / 2))) = lines.map (·.place positions) := by
    refine List.Pairwise.eq_of_mem_iff (List.pairwise_lt_range.filter _) hplaces fun j => ?_
    rw [List.mem_filter, List.mem_range, List.mem_map]
    exact mem_places_iff hkept j
  rw [flatMap_markers_range, hrow, List.map_map]
  exact List.map_congr_left hparity

/-- **When the regions of a source stay closed.** Listed in textual order, the markers of the
methods are well nested if and only if no beginning of the row of methods has more methods directly
before the end of a region than directly behind the start of one, and all methods together as many.
That the markers of the file are well nested is not enough: of several that stand between the same
two methods one is kept of each kind, and the closing one first. Where no two of them meet like
that, and each has a method, the markers of the methods are those of the file. -/
theorem wellNested_regionRow_iff (text path : Text) :
    let s := (parseSource text path).1
    let lines := (SourcePage.ofText text path).regionLines
    let positions := s.inOrder.map Method.position
    (WellNested s.regionRow ↔
      (∀ k ≤ positions.length,
        (List.range k).countP (fun i => lines.any (·.closesBehind positions i)) ≤
          (List.range k).countP fun i => lines.any (·.opensBefore positions i)) ∧
      (List.range positions.length).countP (fun i => lines.any (·.opensBefore positions i)) =
        (List.range positions.length).countP fun i => lines.any (·.closesBehind positions i)) ∧
    ((∀ r ∈ lines, if r.opens then r.gap positions < positions.length else 0 < r.gap positions) →
      (lines.Pairwise fun r r' => r.gap positions < r'.gap positions ∨
        r.gap positions = r'.gap positions ∧ r.opens = false ∧ r'.opens = true) →
      s.regionRow = lines.map (·.opens)) := by
  intro s lines positions
  have hrow : s.regionRow = (List.range positions.length).flatMap fun i =>
      markers (lines.any (·.opensBefore positions i)) (lines.any (·.closesBehind positions i)) :=
    regionRow_parseSource text path
  refine ⟨?_, fun hkept hapart => hrow.trans (flatMap_markers_eq_map_opens hkept hapart)⟩
  rw [WellNested, hrow, openRegions_flatMap_markers, List.length_range, Nat.zero_add, Nat.zero_add]
  refine and_congr_left fun _ => forall_congr' fun k => imp_congr_right fun hk => ?_
  rw [List.take_range, Nat.min_eq_left hk, Nat.zero_add]

/-- A source with a region around its only function. -/
def growRegion : Text :=
  "#region Growth\n\nvoid Shape::grow()\n\x7b\n    size++;\n\x7d\n\n#endregion\n"

/-- Its markers are kept as they are. -/
theorem regionRow_growRegion :
    (parseSource growRegion "Shape.cpp").1.regionRow = [true, false] ∧
      WellNested (parseSource growRegion "Shape.cpp").1.regionRow := by
  have hkept := (wellNested_regionRow_iff growRegion "Shape.cpp").2 (by decide +kernel)
    (by decide +kernel)
  have hrow : (parseSource growRegion "Shape.cpp").1.regionRow = [true, false] :=
    hkept.trans (by decide +kernel)
  refine ⟨hrow, ?_⟩
  rw [hrow]
  decide

/-- A source in which a region is opened and closed before the only function. -/
def emptyRegion : Text :=
  "#region Empty\n#endregion\n\nvoid Shape::grow()\n\x7b\n    size++;\n\x7d\n"

/-- The function behind an empty region has the marker that opens it, and nothing has the one that
closes it. -/
theorem not_forall_wellNested_regionRow :
    ¬ ∀ text path : Text, WellNested ((SourcePage.ofText text path).regionLines.map (·.opens)) →
      WellNested (parseSource text path).1.regionRow := by
  intro h
  have hfile : WellNested
      ((SourcePage.ofText emptyRegion "Shape.cpp").regionLines.map (·.opens)) := by
    decide +kernel
  have hrow : (parseSource emptyRegion "Shape.cpp").1.regionRow = [true] := by decide +kernel
  have hnested := h emptyRegion "Shape.cpp" hfile
  rw [hrow] at hnested
  exact absurd hnested (by decide)

end Sharpen
