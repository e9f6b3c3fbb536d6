import Mathlib.Data.List.Basic
import Sharpen.Proofs.Source.Readings

/-!
# Numbers Follow Positions

The constructs of a source file are found in several passes, and each method is numbered by the
place of its position among the positions of all of them. This module shows that the numbers of the
implementations and local functions of a file follow their positions, whichever pass has found them,
and that all of them name the file as the one with their body.

The rank of a position is the number of smaller ones among all positions of the file, so it grows
with the position. Nothing is asked of the passes but that each method has one of these positions.

## Main results

* `rankOf_lt_rankOf` — a larger position has a larger rank.
* `position_le_of_order_le` — methods of one source are numbered by position.
* `targetFile_of_mem_parseSource` — the body of every method of a source is in that source.
-/

namespace Sharpen

/-! ### Ranks -/

/-- Fewer elements satisfy a condition than a weaker one that holds of one element more. -/
theorem countP_lt_countP {α : Type} {p q : α → Bool} {l : List α}
    (himp : ∀ a ∈ l, p a = true → q a = true) {a : α} (ha : a ∈ l) (hp : p a = false)
    (hq : q a = true) : l.countP p < l.countP q := by
  obtain ⟨before, after, rfl⟩ := List.append_of_mem ha
  have hbefore : before.countP p ≤ before.countP q :=
    List.countP_mono_left fun b hb => himp b (List.mem_append_left _ hb)
  have hafter : after.countP p ≤ after.countP q :=
    List.countP_mono_left fun b hb =>
      himp b (List.mem_append_right _ (List.mem_cons_of_mem _ hb))
  have hpa : ¬ p a = true := by simp [hp]
  rw [List.countP_append, List.countP_append, List.countP_cons_of_neg hpa,
    List.countP_cons_of_pos hq]
  omega

/-- **A larger position has a larger rank.** -/
theorem rankOf_lt_rankOf {positions : List Nat} {i j p q : Nat} (hi : positions[i]? = some p)
    (hj : positions[j]? = some q) (hlt : p < q) : rankOf positions i < rankOf positions j := by
  have hmem : (p, i) ∈ positions.zipIdx := List.mem_zipIdx_iff_getElem?.mpr hi
  have hp : positions.getD i 0 = p := by rw [List.getD_eq_getElem?_getD, hi, Option.getD_some]
  have hq : positions.getD j 0 = q := by rw [List.getD_eq_getElem?_getD, hj, Option.getD_some]
  rw [rankOf, rankOf, hp, hq]
  refine Nat.add_lt_add_left (countP_lt_countP ?_ hmem (by simp) (by simp [hlt])) 1
  rintro ⟨r, k⟩ - hr
  have hle : r ≤ p := by
    simp only [Bool.or_eq_true, decide_eq_true_eq, Bool.and_eq_true, beq_iff_eq] at hr
    omega
  have hrq : r < q := by omega
  simp [hrq]

/-! ### Methods of a source -/

/-- Methods that are numbered by their positions, among others, have numbers that follow them. -/
theorem position_le_of_mem_numberMethods {methods : List Method} {others : List Nat} {a b : Method}
    (ha : a ∈ numberMethods (methods.map Method.position ++ others) 0 methods)
    (hb : b ∈ numberMethods (methods.map Method.position ++ others) 0 methods)
    (hle : a.order ≤ b.order) : a.position ≤ b.position := by
  obtain ⟨i, hi, rfl⟩ := List.mem_mapIdx.mp ha
  obtain ⟨j, hj, rfl⟩ := List.mem_mapIdx.mp hb
  have hposition : ∀ k (hk : k < methods.length),
      (methods.map Method.position ++ others)[k]? = some methods[k].position := by
    intro k hk
    rw [List.getElem?_append_left (by simpa using hk), List.getElem?_map,
      List.getElem?_eq_getElem hk, Option.map_some]
  by_contra hlt
  have hrank := rankOf_lt_rankOf (hposition j hj) (hposition i hi) (Nat.lt_of_not_le hlt)
  simp only [Nat.zero_add] at hle
  omega

/-- Sorting and region markers leave every method its position and number. -/
theorem exists_placed_of_mem_attachRegions {page : SourcePage} {methods : List Method} {m : Method}
    (hm : m ∈ attachRegions page (sortByPosition methods)) :
    ∃ k ∈ methods, k.position = m.position ∧ k.order = m.order := by
  refine forall_mem_attachRegions
    (P := fun m => ∃ k ∈ methods, k.position = m.position ∧ k.order = m.order)
    (fun _ _ _ h => h) (fun _ _ _ h => h) (fun k hk => ?_) m hm
  exact ⟨k, List.mem_mergeSort.mp hk, rfl, rfl⟩

/-- **Methods of one source are numbered by position.** -/
theorem position_le_of_order_le {text path : Text} {a b : Method}
    (ha : a ∈ (parseSource text path).1.methods ++ (parseSource text path).1.locals)
    (hb : b ∈ (parseSource text path).1.methods ++ (parseSource text path).1.locals)
    (hle : a.order ≤ b.order) : a.position ≤ b.position := by
  have hfilter : ∀ {placed : List Method} {m : Method},
      m ∈ placed.filter (fun m => !m.isLocal) ++ placed.filter Method.isLocal → m ∈ placed := by
    intro placed m hm
    rcases List.mem_append.mp hm with hm | hm
    · exact (List.mem_filter.mp hm).1
    · exact (List.mem_filter.mp hm).1
  rw [parseSource] at ha hb
  replace ha := hfilter ha
  replace hb := hfilter hb
  rw [List.append_assoc, ← List.map_append] at ha hb
  obtain ⟨k, hk, hposition, horder⟩ := exists_placed_of_mem_attachRegions ha
  obtain ⟨l, hl, hposition', horder'⟩ := exists_placed_of_mem_attachRegions hb
  rw [← hposition, ← hposition']
  exact position_le_of_mem_numberMethods hk hl (by omega)

/-- **The body of every method of a source is in that source.** -/
theorem targetFile_of_mem_parseSource {text path : Text} :
    ∀ m ∈ (parseSource text path).1.methods ++ (parseSource text path).1.locals,
      m.targetFile = (parseSource text path).1.stem := by
  refine forall_mem_parseSource ⟨?_, ?_, ?_, ?_, ?_⟩
  · exact fun _ _ _ => rfl
  · exact fun _ h => h
  · exact fun _ _ h => h
  · exact fun _ _ _ h => h
  · exact fun _ _ _ h => h

end Sharpen
