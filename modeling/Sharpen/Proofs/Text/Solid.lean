import Mathlib.Data.List.TakeWhile
import Sharpen.Text.Blank

/-!
# What Spacing Leaves

The solid characters of a text are those that are not blank. They are what a text has apart from its
spacing, and what trimming and squeezing leave as it is.

They are what can be counted: a statement that no character is lost, where spacing is settled on the
way, is one about solid characters. The lemmas say how they go through lists, through the words of a
text and through reversal.

## Main definitions

* `Text.solid` — the characters that are not blank, in their order.

## Main results

* `Text.solid_trim`, `Text.solid_squeeze` — settling the spacing keeps them.
-/

namespace Sharpen

namespace Text

/-- The characters of a text that are not blank. -/
def solid (t : Text) : Text :=
  t.filter fun c => !Sharpen.isBlank c

variable {c : Char}

@[simp]
theorem solid_nil : solid [] = [] :=
  rfl

@[simp]
theorem solid_append (t u : Text) : solid (t ++ u) = t.solid ++ u.solid :=
  List.filter_append _ _

/-- A blank is left out. -/
@[simp]
theorem solid_cons_of_blank (hc : Sharpen.isBlank c = true) (t : Text) :
    solid (c :: t) = t.solid := by
  simp [solid, hc]

/-- Any other character stays. -/
@[simp]
theorem solid_cons_of_not_blank (hc : Sharpen.isBlank c = false) (t : Text) :
    solid (c :: t) = c :: t.solid := by
  simp [solid, hc]

theorem solid_cons (c : Char) (t : Text) : solid (c :: t) = solid [c] ++ t.solid :=
  solid_append [c] t

/-- Texts that follow each other are made solid one by one. -/
theorem solid_flatMap {α : Type} (ts : List α) (f : α → Text) :
    solid (ts.flatMap f) = ts.flatMap fun a => (f a).solid := by
  rw [solid, List.filter_flatMap]
  rfl

/-- The characters of a solid text are those of the text that are not blank. -/
theorem mem_solid {t : Text} : c ∈ t.solid ↔ c ∈ t ∧ Sharpen.isBlank c = false := by
  simp [solid]

/-- Dropping blanks from the front keeps the solid characters. -/
theorem solid_trimStart (t : Text) : t.trimStart.solid = t.solid := by
  have hblank : solid (t.takeWhile Sharpen.isBlank) = [] :=
    List.filter_eq_nil_iff.mpr fun c hc => by simp [List.mem_takeWhile_imp hc]
  calc t.trimStart.solid
      = solid (t.takeWhile Sharpen.isBlank) ++ t.trimStart.solid := by rw [hblank, List.nil_append]
    _ = solid (t.takeWhile Sharpen.isBlank ++ t.dropWhile Sharpen.isBlank) :=
        (solid_append _ _).symm
    _ = t.solid := by rw [List.takeWhile_append_dropWhile]

/-- A text is made solid the same way from either end. -/
theorem solid_reverse (t : Text) : solid t.reverse = t.solid.reverse :=
  List.filter_reverse

/-- **Trimming keeps the solid characters.** -/
theorem solid_trim (t : Text) : t.trim.solid = t.solid := by
  have hend : ∀ u : Text, u.trimEnd.solid = u.solid := by
    intro u
    have hstart := solid_trimStart u.reverse
    rw [trimEnd, dropEndWhile, solid_reverse]
    exact (congrArg List.reverse (hstart.trans (solid_reverse u))).trans (List.reverse_reverse _)
  rw [trim, hend, solid_trimStart]

/-- **Squeezing keeps the solid characters.** -/
theorem solid_squeeze (t : Text) : t.squeeze.solid = t.solid := by
  have hspace : Sharpen.isBlank ' ' = true := by decide
  fun_induction squeeze t with
  | case1 => rfl
  | case2 c r hc _ ih => rw [ih, solid_cons_of_blank hc]
  | case3 c r hc _ ih => rw [solid_cons_of_blank hspace, ih, solid_cons_of_blank hc]
  | case4 c r hc ih =>
      rw [Bool.not_eq_true] at hc
      rw [solid_cons_of_not_blank hc, ih, solid_cons_of_not_blank hc]

end Text

end Sharpen
