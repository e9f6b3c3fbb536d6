import Mathlib.Order.Lattice.Nat
import Sharpen.Proofs.Code.Nested
import Sharpen.Proofs.Header.Places

/-!
# The Closing Bracket by Counting

The bracket that closes another one is searched for with a count of the brackets that are still
open. Said without the search: it is the first position behind the opening bracket at which, counted
from there, as many brackets have been closed as opened. Brackets of other kinds do not matter.

The search is a recursion on the text with the number of open brackets as its parameter, so the
statement is proved for every number and used for zero. Counting makes searches comparable that
start in different places: one that starts further on and inside of more brackets has the same
result, put off by the distance.

## Main definitions

* `balancePoints` — the positions at which the numbers are equal.
* `closingPlaces` — the places at which a text has closed `inner + 1` brackets more than it has
  opened.

## Main results

* `closeOffset_eq_some_iff` — what the search finds from any place inside of brackets.
* `matchingAt?_eq_some_iff`, `matchingAt?_eq_none_iff` — what it finds for a bracket.
-/

namespace Sharpen

/-- The places at which a text has closed `inner + 1` brackets more than it has opened. -/
def closingPlaces (opn close : Char) (inner : Nat) (t : Text) : Set Nat :=
  {k | k < t.length ∧ (t.take (k + 1)).count close = (t.take (k + 1)).count opn + (inner + 1)}

/-- **The positions behind `i` at which the numbers of brackets are equal**, counted from `i`. -/
def balancePoints (opn close : Char) (t : Text) (i : Nat) : Set Nat :=
  {j | i < j ∧ j < t.length ∧
    (t.slice i (j + 1)).count opn = (t.slice i (j + 1)).count close}

/-- The least element of a set without zero, one place further on. -/
theorem isLeast_iff_of_succ {S S' : Set Nat} (hzero : 0 ∉ S) (hsucc : ∀ k, k + 1 ∈ S ↔ k ∈ S')
    {m : Nat} : IsLeast S m ↔ ∃ k, IsLeast S' k ∧ k + 1 = m := by
  constructor
  · rintro ⟨hm, hle⟩
    cases m with
    | zero => exact absurd hm hzero
    | succ k =>
        refine ⟨k, ⟨(hsucc k).mp hm, fun l hl => ?_⟩, rfl⟩
        exact Nat.le_of_succ_le_succ (hle ((hsucc l).mpr hl))
  · rintro ⟨k, ⟨hk, hle⟩, rfl⟩
    refine ⟨(hsucc k).mpr hk, fun l hl => ?_⟩
    cases l with
    | zero => exact absurd hl hzero
    | succ l => exact Nat.succ_le_succ (hle ((hsucc l).mp hl))

section

variable {opn close : Char} {t : Text}

/-- With nothing open, a closing bracket is the one. -/
theorem closeOffset_zero_close (hne : close ≠ opn) (r : Text) :
    closeOffset opn close 0 (close :: r) = some 0 := by
  rw [closeOffset.eq_def]
  simp [hne]

/-- **What the search finds**: the first place at which the brackets it is inside of are closed. A
character that ends nothing puts the place off by one, with another number of brackets. -/
theorem closeOffset_eq_some_iff (hne : close ≠ opn) {inner k : Nat} :
    closeOffset opn close inner t = some k ↔ IsLeast (closingPlaces opn close inner t) k := by
  induction t generalizing inner k with
  | nil => simp [closeOffset, closingPlaces, IsLeast]
  | cons c r ih =>
      have hstep : ∀ inner', closeOffset opn close inner (c :: r) =
            (closeOffset opn close inner' r).map (· + 1) →
          0 ∉ closingPlaces opn close inner (c :: r) →
          (∀ k, k + 1 ∈ closingPlaces opn close inner (c :: r) ↔
            k ∈ closingPlaces opn close inner' r) →
          (closeOffset opn close inner (c :: r) = some k ↔
            IsLeast (closingPlaces opn close inner (c :: r)) k) := by
        intro inner' hoffset hzero hsucc
        rw [hoffset, isLeast_iff_of_succ hzero hsucc, Option.map_eq_some_iff]
        exact exists_congr fun l => and_congr_left fun _ => ih
      by_cases hopn : c = opn
      · subst hopn
        refine hstep (inner + 1) (closeOffset_cons_opn c close inner r) ?_ fun k => ?_
        · simp [closingPlaces, Ne.symm hne]
        · simp only [closingPlaces, Set.mem_ofPred_eq, List.take_succ_cons, List.length_cons,
            List.count_cons_self, List.count_cons_of_ne (Ne.symm hne), Nat.add_lt_add_iff_right]
          exact and_congr_right fun _ => by omega
      · by_cases hclose : c = close
        · subst hclose
          cases inner with
          | zero =>
              have hzero : 0 ∈ closingPlaces opn c 0 (c :: r) := by
                simp [closingPlaces, hne]
              rw [closeOffset_zero_close hne, Option.some.injEq]
              constructor
              · rintro rfl
                exact ⟨hzero, fun _ _ => Nat.zero_le _⟩
              · exact fun h => (Nat.le_zero.mp (h.2 hzero)).symm
          | succ inner =>
              refine hstep inner (closeOffset_cons_close hne inner r) ?_ fun k => ?_
              · simp [closingPlaces, hne]
              · simp only [closingPlaces, Set.mem_ofPred_eq, List.take_succ_cons, List.length_cons,
                  List.count_cons_self, List.count_cons_of_ne hne, Nat.add_lt_add_iff_right]
                exact and_congr_right fun _ => by omega
        · refine hstep inner (closeOffset_cons_of_ne hopn hclose inner r) ?_ fun k => ?_
          · simp [closingPlaces, hopn, hclose]
          · simp only [closingPlaces, Set.mem_ofPred_eq, List.take_succ_cons, List.length_cons,
              List.count_cons_of_ne hopn, List.count_cons_of_ne hclose, Nat.add_lt_add_iff_right]

/-- From a place on, a text has the character there and those behind it. -/
theorem drop_eq_cons {i : Nat} {c : Char} (hc : t[i]? = some c) :
    t.drop i = c :: t.drop (i + 1) := by
  obtain ⟨hlt, rfl⟩ := List.getElem?_eq_some_iff.mp hc
  exact List.drop_eq_getElem_cons hlt

/-- A bracket and the text behind it. -/
theorem slice_cons_take {i : Nat} {c : Char} (hc : t[i]? = some c) (k : Nat) :
    t.slice i (k + (i + 1) + 1) = c :: (t.drop (i + 1)).take (k + 1) := by
  rw [Text.slice, List.drop_take, drop_eq_cons hc, show k + (i + 1) + 1 - i = k + 1 + 1 by omega,
    List.take_succ_cons]

/-- Counted from a bracket, the numbers are equal where the text behind it has closed one more. -/
theorem mem_balancePoints_iff (hne : close ≠ opn) {i : Nat} (hopn : t[i]? = some opn) (k : Nat) :
    k + (i + 1) ∈ balancePoints opn close t i ↔ k ∈ closingPlaces opn close 0 (t.drop (i + 1)) := by
  simp only [balancePoints, closingPlaces, Set.mem_ofPred_eq, slice_cons_take hopn,
    List.length_drop, List.count_cons_self, List.count_cons_of_ne (Ne.symm hne)]
  omega

/-- **The closing bracket is where the numbers are equal for the first time.** -/
theorem matchingAt?_eq_some_iff (hne : close ≠ opn) {i : Nat} (hopn : t[i]? = some opn) {m : Nat} :
    matchingAt? opn close t i = some m ↔ IsLeast (balancePoints opn close t i) m := by
  have hmem := mem_balancePoints_iff hne hopn
  rw [matchingAt?, Option.map_eq_some_iff]
  constructor
  · rintro ⟨k, hk, rfl⟩
    obtain ⟨hk, hle⟩ := (closeOffset_eq_some_iff hne).mp hk
    refine ⟨(hmem k).mpr hk, fun j hj => ?_⟩
    obtain ⟨l, rfl⟩ : ∃ l, j = l + (i + 1) := ⟨j - (i + 1), by have := hj.1; omega⟩
    exact Nat.add_le_add_right (hle ((hmem l).mp hj)) _
  · rintro ⟨hm, hle⟩
    obtain ⟨k, rfl⟩ : ∃ k, m = k + (i + 1) := ⟨m - (i + 1), by have := hm.1; omega⟩
    refine ⟨k, (closeOffset_eq_some_iff hne).mpr ⟨(hmem k).mp hm, fun l hl => ?_⟩, rfl⟩
    exact Nat.le_of_add_le_add_right (hle ((hmem l).mpr hl))

/-- There is no closing bracket just if the numbers are never equal. -/
theorem matchingAt?_eq_none_iff (hne : close ≠ opn) {i : Nat} (hopn : t[i]? = some opn) :
    matchingAt? opn close t i = none ↔ balancePoints opn close t i = ∅ := by
  rw [Option.eq_none_iff_forall_ne_some, ← Set.not_nonempty_iff_eq_empty]
  constructor
  · rintro hnone hpoints
    refine hnone _ ((matchingAt?_eq_some_iff hne hopn).mpr ⟨Nat.sInf_mem hpoints, ?_⟩)
    exact fun _ hj => Nat.sInf_le hj
  · rintro hempty m hm
    exact hempty ⟨m, ((matchingAt?_eq_some_iff hne hopn).mp hm).1⟩

/-- A bracket is never its own closing bracket. -/
theorem ne_of_closingBracket {c d : Char} (h : closingBracket c = some d) : d ≠ c := by
  unfold closingBracket at h
  split at h <;> cases h <;> decide

end

end Sharpen
