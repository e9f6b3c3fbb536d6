import Sharpen.Text.Basic

/-!
# The Order of Texts

Names and paths are put in the order of their characters' codes. This order is linear, so sorting by
it has one result.

It is the lexicographic order on the codes, and it is decided character by character. Files, sources
and parts are put in order by it, and so that a result does not depend on the order of its
arguments, it is needed that no two different texts are equal in it.

## Main results

* `Text.precedes_trans`, `Text.precedes_total`, `Text.precedes_antisymm` — the order is linear.
-/

namespace Sharpen.Text

/-- Of three texts in order the first comes before the last. -/
theorem precedes_trans {a b c : Text} (hab : precedes a b = true) (hbc : precedes b c = true) :
    precedes a c = true := by
  induction a generalizing b c with
  | nil => rfl
  | cons x a ih =>
      cases b with
      | nil => cases hab
      | cons y b =>
          cases c with
          | nil => cases hbc
          | cons z c =>
              simp only [precedes, Bool.or_eq_true, decide_eq_true_eq, Bool.and_eq_true,
                beq_iff_eq] at hab hbc ⊢
              rcases hab with hxy | ⟨rfl, hab⟩
              · rcases hbc with hyz | ⟨rfl, -⟩
                · exact Or.inl (by omega)
                · exact Or.inl hxy
              · rcases hbc with hyz | ⟨rfl, hbc⟩
                · exact Or.inl hyz
                · exact Or.inr ⟨rfl, ih hab hbc⟩

/-- Of two texts one comes before the other. -/
theorem precedes_total (a b : Text) : (precedes a b || precedes b a) = true := by
  induction a generalizing b with
  | nil => rfl
  | cons x a ih =>
      cases b with
      | nil => rfl
      | cons y b =>
          have hrest := ih b
          simp only [precedes, Bool.or_eq_true, decide_eq_true_eq, Bool.and_eq_true,
            beq_iff_eq] at hrest ⊢
          rcases Nat.lt_trichotomy x.toNat y.toNat with hlt | heq | hgt
          · exact Or.inl (Or.inl hlt)
          · have hxy : x = y := Char.toNat_inj.mp heq
            rcases hrest with hab | hba
            · exact Or.inl (Or.inr ⟨hxy, hab⟩)
            · exact Or.inr (Or.inr ⟨hxy.symm, hba⟩)
          · exact Or.inr (Or.inl hgt)

/-- Two texts that come before each other are the same. -/
theorem precedes_antisymm {a b : Text} (hab : precedes a b = true) (hba : precedes b a = true) :
    a = b := by
  induction a generalizing b with
  | nil =>
      cases b with
      | nil => rfl
      | cons y b => cases hba
  | cons x a ih =>
      cases b with
      | nil => cases hab
      | cons y b =>
          simp only [precedes, Bool.or_eq_true, decide_eq_true_eq, Bool.and_eq_true,
            beq_iff_eq] at hab hba
          rcases hab with hlt | ⟨rfl, hab⟩
          · rcases hba with hlt' | ⟨rfl, -⟩
            · omega
            · omega
          · rcases hba with hlt | ⟨-, hba⟩
            · omega
            · rw [ih hab hba]

end Sharpen.Text
