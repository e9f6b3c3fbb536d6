import Mathlib.Data.List.Basic
import Sharpen.Decl.Comment
import Sharpen.Proofs.Header.NextCode

/-!
# Climbing Over Comments

The comment above a line is found by climbing from line to line, and from a comment to what stands
above it. There are two ways to go on: over a comment that ends right above, or over blank lines to
a line further up that ends a comment. The second way looks at nothing but this line and the lowest
of the blank ones, so it may lead to a comment that cannot be taken.

As a relation, the climbing says only which steps are possible, and the search that is computed is
shown to take them until none is left. The relation is what proofs about comments go by: it gives
the lines that are taken as a run of whole comments with blank lines between them, and it shows that
nothing but the lines above the start makes a difference.

## Main definitions

* `IsComment` — the lines of one comment, as the climbing sees them.
* `CommentAbove` — blank lines that are crossed.
* `Climbs` — the climbing as a relation; `climbs_climbComments` says that it is nothing else.
* `isBlankLine` — whether line `i` is blank.
* `Climbs.ReachedFrom` — a place that is climbed to from line `top`, which is not blank: this line,
  or behind the blank lines that are crossed from it.

## Main results

* `Climbs.isBlankLine_pred`, `Climbs.exists_top` — what the lines are like at the end of a climb and
  at its start.
* `collectComments_take` — nothing but the lines above makes a difference.
* `climbComments_congr` — the climbing looks at the lines above alone: at their texts, and whether
  they are claimed.
-/

namespace Sharpen

/-! ### Lines -/

/-- Whether line `i` is blank. -/
def isBlankLine (lines : List Text) (i : Nat) : Bool :=
  (lines.getD i []).isBlank

/-- What is found below a bound is there, and nothing between it and the bound is. -/
theorem lastBelow?_eq_some_iff {p : Nat → Bool} {n i : Nat} :
    lastBelow? p n = some i ↔ i < n ∧ p i = true ∧ ∀ j, i < j → j < n → p j = false := by
  induction n with
  | zero => simp [lastBelow?]
  | succ n ih =>
      rw [lastBelow?]
      split
      · rename_i hn
        rw [Option.some.injEq]
        constructor
        · rintro rfl
          exact ⟨Nat.lt_succ_self _, hn, fun j hj hlt => by omega⟩
        · rintro ⟨hlt, -, hlater⟩
          by_contra hne
          rw [hlater n (by omega) (Nat.lt_succ_self n)] at hn
          cases hn
      · rename_i hn
        rw [ih]
        constructor
        · rintro ⟨hlt, hi, hlater⟩
          refine ⟨by omega, hi, fun j hj hjn => ?_⟩
          by_cases hlast : j = n
          · simpa [hlast] using hn
          · exact hlater j hj (by omega)
        · rintro ⟨hlt, hi, hlater⟩
          have hne : i ≠ n := by
            rintro rfl
            exact hn hi
          exact ⟨by omega, hi, fun j hj hjn => hlater j hj (by omega)⟩

/-- There is no last index exactly when there is no index. -/
theorem lastBelow?_eq_none_iff {p : Nat → Bool} {n : Nat} :
    lastBelow? p n = none ↔ ∀ j < n, p j = false := by
  induction n with
  | zero => simp [lastBelow?]
  | succ n ih =>
      rw [lastBelow?, Nat.forall_lt_succ_right]
      split <;> simp_all

section

variable {lines : List Text} {i : Nat}

/-- A trimmed line is empty when the line is blank. -/
theorem trimmedLine_isEmpty (lines : List Text) (i : Nat) :
    (trimmedLine lines i).isEmpty = isBlankLine lines i :=
  Text.trim_isEmpty _

/-- A line that starts with a mark is not blank. -/
theorem isBlankLine_eq_false_of_startsWith {mark : Text} (hmark : mark ≠ [])
    (h : (trimmedLine lines i).startsWith mark = true) : isBlankLine lines i = false := by
  rw [← trimmedLine_isEmpty, ← Bool.not_eq_true, List.isEmpty_iff]
  intro hnil
  rw [hnil, Text.startsWith, List.isPrefixOf_iff_prefix, List.prefix_nil] at h
  exact hmark h

/-- Nor is one that ends with a mark. -/
theorem isBlankLine_eq_false_of_endsWith {mark : Text} (hmark : mark ≠ [])
    (h : (trimmedLine lines i).endsWith mark = true) : isBlankLine lines i = false := by
  rw [← trimmedLine_isEmpty, ← Bool.not_eq_true, List.isEmpty_iff]
  intro hnil
  rw [hnil, Text.endsWith, List.isSuffixOf_iff_suffix, List.suffix_nil] at h
  exact hmark h

end

/-! ### What is climbed over -/

/-- Whether line `i` holds the mark that opens a block comment. -/
def opensBlock (lines : List Text) (i : Nat) : Bool :=
  Text.hasInfix (lines.getD i []) "/*"

/-- **The lines of one comment**, from the first to the last: a line that starts with `//`, or the
lines from the last `/*`, which must start its line, to a line that ends with `*/`. -/
inductive IsComment (lines : List Text) : (first last : Nat) → Prop
  | line {i : Nat} (hstart : (trimmedLine lines i).startsWith "//" = true) : IsComment lines i i
  | block {first last : Nat} (hline : (trimmedLine lines last).startsWith "//" = false)
      (hend : (trimmedLine lines last).endsWith "*/" = true)
      (hopens : lastBelow? (opensBlock lines) (last + 1) = some first)
      (hstart : (trimmedLine lines first).startsWith "/*" = true) : IsComment lines first last

/-- **Blank lines that are crossed**: those between line `above`, on which a comment ends, and line
`top`. There is at least one, and neither the lowest of them nor line `above` has been claimed. -/
structure CommentAbove (lines : List Text) (claimed : List Nat) (top above : Nat) : Prop where
  lt : above + 1 < top
  blank : ∀ i, above < i → i < top → isBlankLine lines i = true
  notBlank : isBlankLine lines above = false
  free : above ∉ claimed
  free_pred : top - 1 ∉ claimed
  ends : endsComment (trimmedLine lines above) = true

namespace IsComment

variable {lines : List Text} {first last : Nat}

/-- The first line of a comment is not behind the last. -/
theorem le (h : IsComment lines first last) : first ≤ last := by
  cases h with
  | line => exact Nat.le_refl _
  | block _ _ hopens => exact Nat.lt_succ_iff.mp (lt_of_lastBelow? hopens)

/-- A comment does not start with a blank line. -/
theorem isBlankLine_first (h : IsComment lines first last) : isBlankLine lines first = false := by
  cases h with
  | line hstart => exact isBlankLine_eq_false_of_startsWith (by decide) hstart
  | block _ _ _ hstart => exact isBlankLine_eq_false_of_startsWith (by decide) hstart

/-- It does not end with one. -/
theorem isBlankLine_last (h : IsComment lines first last) : isBlankLine lines last = false := by
  cases h with
  | line hstart => exact isBlankLine_eq_false_of_startsWith (by decide) hstart
  | block _ hend => exact isBlankLine_eq_false_of_endsWith (by decide) hend

end IsComment

/-! ### The climbing -/

/-- **Climbing** from line `n` to line `stop`, below which comment lines have been found down to
`bottom`. It ends where no comment ends right above, or only one that cannot be taken. -/
inductive Climbs (lines : List Text) (claimed : List Nat) (bottom : Nat) : (n stop : Nat) → Prop
  | stops {n : Nat} (hstop : n < bottom → ∀ above, ¬CommentAbove lines claimed n above) :
      Climbs lines claimed bottom n n
  | comment {first last stop : Nat} (hcomment : IsComment lines first last)
      (hfree : ∀ i, first ≤ i → i ≤ last → i ∉ claimed)
      (hclimbs : Climbs lines claimed bottom first stop) :
      Climbs lines claimed bottom (last + 1) stop
  | blanks {n above stop : Nat} (hn : n < bottom) (habove : CommentAbove lines claimed n above)
      (hclimbs : Climbs lines claimed bottom (above + 1) stop) : Climbs lines claimed bottom n stop

/-- There is nothing to cross right above a line that is not blank. -/
theorem not_commentAbove_succ {lines : List Text} {claimed : List Nat} {n : Nat}
    (h : isBlankLine lines n = false) (above : Nat) :
    ¬CommentAbove lines claimed (n + 1) above := by
  intro habove
  have hlt := habove.lt
  rw [habove.blank n (by omega) (Nat.lt_succ_self n)] at h
  cases h

/-- **The climbing goes as it is said to.** The line that is found is the only one that could be
crossed to. -/
theorem climbs_climbComments (lines : List Text) (claimed : List Nat) (bottom n : Nat) :
    Climbs lines claimed bottom n (climbComments lines claimed bottom n) := by
  fun_induction climbComments lines claimed bottom n with
  | case1 => exact .stops fun _ above habove => by have := habove.lt; omega
  | case2 n hclaimed =>
      refine .stops fun _ above habove => habove.free_pred ?_
      simpa [List.contains_iff_mem] using hclaimed
  | case3 n line hfree hline ih =>
      refine .comment (.line hline) (fun i hle hle' => ?_) ih
      obtain rfl : n = i := Nat.le_antisymm hle hle'
      simpa [List.contains_iff_mem] using hfree
  | case4 n line hfree hline hend hopens =>
      exact .stops fun _ => not_commentAbove_succ
        (isBlankLine_eq_false_of_endsWith (by decide) hend)
  | case5 n line hfree hline hend start hopens hcannot =>
      exact .stops fun _ => not_commentAbove_succ
        (isBlankLine_eq_false_of_endsWith (by decide) hend)
  | case6 n line hfree hline hend start hopens hcan ih =>
      rw [Bool.not_eq_true, Bool.or_eq_false_iff, Bool.not_eq_false', List.any_eq_false] at hcan
      refine .comment (.block (Bool.not_eq_true _ ▸ hline) hend hopens hcan.2)
        (fun i hle hle' => ?_) ih
      have hnot := hcan.1 i (by rw [List.mem_range'_1]; omega)
      simpa [List.contains_iff_mem] using hnot
  | case7 n line hfree hline hend hblank hnone =>
      refine .stops fun _ above habove => ?_
      have hnot := lastBelow?_eq_none_iff.mp hnone above (by have := habove.lt; omega)
      rw [Bool.not_eq_false', ← isBlankLine, habove.notBlank] at hnot
      cases hnot
  | case8 n line hfree hline hend hblank above habove hcan ih =>
      rw [Bool.and_eq_true, decide_eq_true_eq, trimmedLine_isEmpty] at hblank
      rw [Bool.and_eq_true, Bool.not_eq_true'] at hcan
      obtain ⟨hlt, hcode, hlater⟩ := lastBelow?_eq_some_iff.mp habove
      refine .blanks hblank.2 ⟨Nat.succ_lt_succ hlt, fun i hi hin => ?_, ?_, ?_, ?_, hcan.2⟩ ih
      · by_cases hlast : i = n
        · exact hlast ▸ hblank.1
        · simpa [isBlankLine] using hlater i hi (by omega)
      · simpa [isBlankLine] using hcode
      · simpa [← Bool.not_eq_true, List.contains_iff_mem] using hcan.1
      · simpa [List.contains_iff_mem] using hfree
  | case9 n line hfree hline hend hblank start hstart hcannot =>
      refine .stops fun _ above habove => hcannot ?_
      obtain rfl : above = start := by
        have hfound : lastBelow? (fun i => !(lines.getD i []).isBlank) n = some above := by
          refine lastBelow?_eq_some_iff.mpr ⟨by have := habove.lt; omega, ?_, fun j hj hjn => ?_⟩
          · exact congrArg (!·) habove.notBlank
          · exact congrArg (!·) (habove.blank j hj (by omega))
        exact Option.some.inj (hfound.symm.trans hstart)
      simpa [List.contains_iff_mem] using ⟨habove.free, habove.ends⟩
  | case10 n line hfree hline hend hblank =>
      refine .stops fun hn => not_commentAbove_succ ?_
      rw [Bool.and_eq_true, decide_eq_true_eq, trimmedLine_isEmpty] at hblank
      simpa [hn] using hblank

namespace Climbs

variable {lines : List Text} {claimed : List Nat} {bottom n stop : Nat}

/-- A climb goes up. -/
theorem le (h : Climbs lines claimed bottom n stop) : stop ≤ n := by
  induction h with
  | stops => exact Nat.le_refl _
  | comment hcomment _ _ ih => exact Nat.le_succ_of_le (Nat.le_trans ih hcomment.le)
  | blanks _ habove _ ih => exact Nat.le_trans ih (Nat.le_of_lt habove.lt)

/-- The line right above the start of a climb is not blank, if it is climbed over at all. -/
theorem isBlankLine_pred (h : Climbs lines claimed bottom bottom stop) (hlt : stop < bottom) :
    isBlankLine lines (bottom - 1) = false := by
  cases h with
  | stops => exact absurd hlt (Nat.lt_irrefl _)
  | comment hcomment => exact hcomment.isBlankLine_last
  | blanks hn => exact absurd hn (Nat.lt_irrefl _)

/-- A place that is climbed to from line `top`, which is not blank: this line, or behind the blank
lines that are crossed from it. -/
def ReachedFrom (lines : List Text) (claimed : List Nat) (bottom top n : Nat) : Prop :=
  (top = bottom ∨ top < bottom ∧ isBlankLine lines top = false) ∧
    (n = top ∨ top < bottom ∧ ∃ above, n = above + 1 ∧ CommentAbove lines claimed top above)

/-- **The end of a climb**: the highest comment line that is climbed over, and above it blank lines
just if these can be crossed. -/
theorem exists_top (h : Climbs lines claimed bottom n stop) {lower : Nat}
    (hreached : ReachedFrom lines claimed bottom lower n) :
    ∃ top, ReachedFrom lines claimed bottom top stop ∧ top ≤ lower ∧
      (top < bottom → (stop < top ↔ ∃ above, CommentAbove lines claimed top above)) := by
  induction h generalizing lower with
  | @stops n hstop =>
      refine ⟨lower, hreached, Nat.le_refl _, fun hlt => ?_⟩
      rcases hreached.2 with rfl | ⟨-, above, rfl, habove⟩
      · simp only [Nat.lt_irrefl, false_iff, not_exists]
        exact hstop hlt
      · exact iff_of_true habove.lt ⟨above, habove⟩
  | @comment first last stop hcomment _ _ ih =>
      have hle := hcomment.le
      have hlower : last < lower ∧ lower ≤ bottom := by
        obtain ⟨hbottom, rfl | ⟨hlt, above, habove, hcross⟩⟩ := hreached
        · omega
        · have := hcross.lt
          omega
      obtain ⟨top, htop, htople, hiff⟩ := ih
        (⟨Or.inr ⟨by omega, hcomment.isBlankLine_first⟩, Or.inl rfl⟩ :
          ReachedFrom lines claimed bottom first first)
      exact ⟨top, htop, by omega, hiff⟩
  | @blanks n above stop hn habove _ ih =>
      rcases hreached with ⟨hbottom, rfl | ⟨-, above', rfl, hcross⟩⟩
      · exact ih ⟨hbottom, Or.inr ⟨hn, above, rfl, habove⟩⟩
      · exact absurd habove (not_commentAbove_succ hcross.notBlank above)

end Climbs

/-! ### What is seen from below -/

/-- **The climbing looks at the lines above alone**: at their texts, and whether they are
claimed. -/
theorem climbComments_congr {lines lines' : List Text} {claimed claimed' : List Nat} (bottom : Nat)
    {n : Nat} (hlines : ∀ i < n, lines.getD i [] = lines'.getD i [])
    (hclaimed : ∀ i < n, claimed.contains i = claimed'.contains i) :
    climbComments lines claimed bottom n = climbComments lines' claimed' bottom n := by
  induction n using Nat.strongRecOn with
  | ind n ih =>
      cases n with
      | zero => rw [climbComments, climbComments]
      | succ cursor =>
          have hat : ∀ i < cursor + 1, trimmedLine lines i = trimmedLine lines' i :=
            fun i hi => congrArg Text.trim (hlines i hi)
          have hgo : ∀ k < cursor + 1, climbComments lines claimed bottom k
              = climbComments lines' claimed' bottom k := fun k hk =>
            ih k hk (fun i hi => hlines i (by omega)) fun i hi => hclaimed i (by omega)
          have hopens : lastBelow? (fun i => Text.hasInfix (lines.getD i []) "/*") (cursor + 1)
              = lastBelow? (fun i => Text.hasInfix (lines'.getD i []) "/*") (cursor + 1) :=
            lastBelow?_congr fun i hi => by rw [hlines i hi]
          have habove : lastBelow? (fun i => !Text.isBlank (lines.getD i [])) cursor
              = lastBelow? (fun i => !Text.isBlank (lines'.getD i [])) cursor :=
            lastBelow?_congr fun i hi => by rw [hlines i (by omega)]
          rw [climbComments, climbComments, hat cursor (Nat.lt_succ_self _),
            hclaimed cursor (Nat.lt_succ_self _), hgo cursor (Nat.lt_succ_self _)]
          split
          · rfl
          split
          · rfl
          split
          · rw [hopens]
            split
            · rfl
            · rename_i start hstart
              have hlt := lt_of_lastBelow? hstart
              have hany : (List.range' start (cursor + 1 - start)).any claimed.contains
                  = (List.range' start (cursor + 1 - start)).any claimed'.contains := by
                rw [Bool.eq_iff_iff, List.any_eq_true, List.any_eq_true]
                refine exists_congr fun i => and_congr_right fun hi => ?_
                rw [hclaimed i (by rw [List.mem_range'_1] at hi; omega)]
              rw [hany, hat start hlt, hgo start hlt]
          split
          · rw [habove]
            split
            · rfl
            · rename_i above hfound
              have hlt := lt_of_lastBelow? hfound
              rw [hclaimed above (by omega), hat above (by omega), hgo (above + 1) (by omega)]
          · rfl

/-- **A search takes lines above alone**, and finds the same if these were all there is. -/
theorem collectComments_take (lines : List Text) (index : Nat) (claimed : List Nat)
    {later : List Nat} (hlater : ∀ i ∈ later, index ≤ i) :
    (collectComments lines index (claimed ++ later)).lines
      = (collectComments (lines.take index) index claimed).lines := by
  have hclimb : climbComments lines (claimed ++ later) index index
      = climbComments (lines.take index) claimed index index := by
    refine climbComments_congr index (fun i hi => ?_) fun i hi => ?_
    · rw [List.getD_eq_getElem?_getD, List.getD_eq_getElem?_getD, List.getElem?_take_of_lt hi]
    · rw [Bool.eq_iff_iff, List.contains_iff_mem, List.contains_iff_mem, List.mem_append,
        or_iff_left]
      exact fun hmem => absurd (hlater i hmem) (by omega)
  simp only [collectComments, takeLines, hclimb, List.take_take, Nat.min_self]

end Sharpen
