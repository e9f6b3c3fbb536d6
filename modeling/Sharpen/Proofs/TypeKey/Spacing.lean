import Mathlib.Data.List.TakeWhile
import Mathlib.Logic.Relation
import Sharpen.Decl.TypeKey

/-!
# Blanks Next to Template Marks

Blanks next to `<`, `>` and `,` say nothing about a type. This module defines what it means to take
them away, one at a time and in any order, without reference to how it is computed, and shows that
`tighten` computes it.

The relation takes one blank away at a time. It ends, for the text becomes shorter, and it does not
matter in which order the blanks go, which is shown by giving the form that remains. This form is
what a key has of each token.

## Main definitions

* `DropsBlank` takes one blank away next to a template mark; `TightForm t k` says that `k` is `t`
  once no such blank is left.
* `TightForm` — `k` is the token `t` once all blanks next to its template marks are taken away.

## Main results

* `tightForm_iff` — `tighten` gives exactly this form, so the order in which the blanks go does not
  matter.
-/

namespace Sharpen

/-! ### Blanks next to template marks -/

/-- One blank next to a template mark is taken away. -/
inductive DropsBlank : Text → Text → Prop
  | before {b m : Char} (u v : Text) :
      isBlank b = true → isTemplateMark m = true → DropsBlank (u ++ b :: m :: v) (u ++ m :: v)
  | after {m b : Char} (u v : Text) :
      isTemplateMark m = true → isBlank b = true → DropsBlank (u ++ m :: b :: v) (u ++ m :: v)

/-- `k` is the token `t` once all blanks next to its template marks are taken away. -/
def TightForm (t k : Text) : Prop :=
  Relation.ReflTransGen DropsBlank t k ∧ ∀ u, ¬ DropsBlank k u

/-- A step makes the text shorter. -/
theorem DropsBlank.length_lt {s t : Text} (h : DropsBlank s t) : t.length < s.length := by
  cases h with
  | before u v _ _ => simp
  | after u v _ _ => simp

/-- A step may be taken behind any character. -/
theorem DropsBlank.cons {s t : Text} (h : DropsBlank s t) (c : Char) :
    DropsBlank (c :: s) (c :: t) := by
  cases h with
  | before u v hb hm => exact DropsBlank.before (c :: u) v hb hm
  | after u v hm hb => exact DropsBlank.after (c :: u) v hm hb

/-- So may any number of steps. -/
theorem dropsBlanks_cons {s t : Text} (h : Relation.ReflTransGen DropsBlank s t) (c : Char) :
    Relation.ReflTransGen DropsBlank (c :: s) (c :: t) :=
  h.lift (c :: ·) fun _ _ hstep => hstep.cons c

/-- A template mark is no blank. -/
theorem isBlank_of_isTemplateMark {m : Char} (h : isTemplateMark m = true) : isBlank m = false := by
  simp only [isTemplateMark, Bool.or_eq_true, beq_iff_eq] at h
  rcases h with (rfl | rfl) | rfl <;> decide

/-! ### Tightening -/

/-- Tightening does not see a blank before a template mark. -/
theorem tightenFrom_blank_before {b m : Char} (hb : isBlank b = true)
    (hm : isTemplateMark m = true) (afterMark : Bool) (u v : Text) :
    tightenFrom afterMark (u ++ b :: m :: v) = tightenFrom afterMark (u ++ m :: v) := by
  have hblank := isBlank_of_isTemplateMark hm
  induction u generalizing afterMark with
  | nil => cases afterMark <;> simp [tightenFrom, hb, hm, hblank]
  | cons c r ih =>
      have hfind : ((r ++ b :: m :: v).dropWhile isBlank).head?
          = ((r ++ m :: v).dropWhile isBlank).head? := by
        simp [← List.find?_not_eq_head?_dropWhile, List.find?_append, hb]
      simp only [List.cons_append, tightenFrom, hfind, ih]

/-- Nor one behind it. -/
theorem tightenFrom_blank_after {m b : Char} (hm : isTemplateMark m = true)
    (hb : isBlank b = true) (afterMark : Bool) (u v : Text) :
    tightenFrom afterMark (u ++ m :: b :: v) = tightenFrom afterMark (u ++ m :: v) := by
  have hblank := isBlank_of_isTemplateMark hm
  induction u generalizing afterMark with
  | nil => simp [tightenFrom, hb, hm, hblank]
  | cons c r ih =>
      have hfind : ((r ++ m :: b :: v).dropWhile isBlank).head?
          = ((r ++ m :: v).dropWhile isBlank).head? := by
        simp [← List.find?_not_eq_head?_dropWhile, List.find?_append, hblank]
      simp only [List.cons_append, tightenFrom, hfind, ih]

/-- Taking blanks away next to template marks does not change what tightening gives. -/
theorem tighten_eq_of_dropsBlanks {s t : Text} (h : Relation.ReflTransGen DropsBlank s t) :
    tighten s = tighten t := by
  induction h with
  | refl => rfl
  | tail _ hstep ih =>
      rw [ih]
      cases hstep with
      | before u v hb hm => exact tightenFrom_blank_before hb hm false u v
      | after u v hm hb => exact tightenFrom_blank_after hm hb false u v

/-- A text whose first character that is no blank is the mark `m` starts with it once tightened. -/
theorem tightenFrom_eq_cons {t : Text} {m : Char} (hm : isTemplateMark m = true)
    (ht : (t.dropWhile isBlank).head? = some m) :
    ∃ v, tightenFrom false t = m :: v := by
  induction t with
  | nil => simp at ht
  | cons c r ih =>
      by_cases hc : isBlank c = true
      · have hr : (r.dropWhile isBlank).head? = some m := by
          simpa [List.dropWhile_cons, hc] using ht
        simpa [tightenFrom, hc, hr, hm] using ih hr
      · obtain rfl : c = m := by simpa [List.dropWhile_cons, hc] using ht
        exact ⟨tightenFrom true r, by simp [tightenFrom, hc, hm]⟩

/-- Tightening only takes away blanks next to template marks; behind a mark `m` also those the text
starts with. -/
theorem dropsBlanks_tightenFrom (t : Text) :
    Relation.ReflTransGen DropsBlank t (tightenFrom false t) ∧
      ∀ m, isTemplateMark m = true →
        Relation.ReflTransGen DropsBlank (m :: t) (m :: tightenFrom true t) := by
  induction t with
  | nil => exact ⟨.refl, fun _ _ => .refl⟩
  | cons c r ih =>
      by_cases hc : isBlank c = true
      · refine ⟨?_, fun m hm => ?_⟩
        · by_cases hnext : (r.dropWhile isBlank).head?.any isTemplateMark = true
          · -- The blank can only go once the blanks between it and the mark are gone.
            obtain ⟨m, hhead, hm⟩ := (Option.any_eq_true _ _).mp hnext
            obtain ⟨v, hv⟩ := tightenFrom_eq_cons hm hhead
            have hdrop : DropsBlank (c :: tightenFrom false r) (tightenFrom false r) := by
              rw [hv]
              exact DropsBlank.before [] v hc hm
            have htight : tightenFrom false (c :: r) = tightenFrom false r := by
              simp [tightenFrom, hc, hnext]
            rw [htight]
            exact (dropsBlanks_cons ih.1 c).tail hdrop
          · have htight : tightenFrom false (c :: r) = c :: tightenFrom false r := by
              simp [tightenFrom, hc, hnext]
            rw [htight]
            exact dropsBlanks_cons ih.1 c
        · have hdrop : DropsBlank (m :: c :: r) (m :: r) := DropsBlank.after [] r hm hc
          have htight : tightenFrom true (c :: r) = tightenFrom true r := by
            simp [tightenFrom, hc]
          rw [htight]
          exact (ih.2 m hm).head hdrop
      · have hbehind : Relation.ReflTransGen DropsBlank (c :: r)
            (c :: tightenFrom (isTemplateMark c) r) := by
          cases hmark : isTemplateMark c with
          | false => exact dropsBlanks_cons ih.1 c
          | true => exact ih.2 c hmark
        have htight : ∀ a, tightenFrom a (c :: r) = c :: tightenFrom (isTemplateMark c) r := by
          intro a
          simp [tightenFrom, hc]
        rw [htight, htight]
        exact ⟨hbehind, fun m _ => dropsBlanks_cons hbehind m⟩

/-- Tightening never makes a text longer. -/
theorem length_tightenFrom_le (afterMark : Bool) (t : Text) :
    (tightenFrom afterMark t).length ≤ t.length := by
  fun_induction tightenFrom afterMark t with
  | case1 => simp
  | case2 r c hblank ih => simp only [List.length_cons]; omega
  | case3 => simp only [List.length_cons]; omega
  | case4 => simp only [List.length_cons]; omega
  | case5 => simp only [List.length_cons]; omega

/-- **Tightening is exact**: it gives the one form without blanks next to template marks that is
reached by taking such blanks away. -/
theorem tightForm_iff {t k : Text} : TightForm t k ↔ tighten t = k := by
  have hreach := fun t => (dropsBlanks_tightenFrom t).1
  constructor
  · rintro ⟨hsteps, hlast⟩
    rw [tighten_eq_of_dropsBlanks hsteps]
    rcases Relation.ReflTransGen.cases_head (hreach k) with heq | ⟨u, hstep, -⟩
    · exact heq.symm
    · exact absurd hstep (hlast u)
  · rintro rfl
    refine ⟨hreach t, fun u hstep => ?_⟩
    have hidem : tighten u = tighten t := by
      rw [tighten_eq_of_dropsBlanks (hreach t)]
      exact (tighten_eq_of_dropsBlanks (.single hstep)).symm
    have hle := length_tightenFrom_le false u
    have hlt := hstep.length_lt
    rw [← hidem] at hlt
    exact absurd hlt (Nat.not_lt.mpr hle)

/-- A tight token stays as it is. -/
theorem tighten_tighten (t : Text) : tighten (tighten t) = tighten t :=
  (tighten_eq_of_dropsBlanks (dropsBlanks_tightenFrom t).1).symm

end Sharpen
