import Mathlib.Data.List.GetD
import Sharpen.Proofs.Decl.Climbing

/-!
# Comment Lines Are Taken Once

The comments above the declarations of a file are taken one after another, and a line that one
declaration has taken is not there for the next. The climbing asks the claimed lines only about the
lowest of some blank lines that it crosses. This is enough as long as the claimed lines cut no run
of blank lines in two, and no search ever does.

The searches of a file are run one after the other, each with the lines claimed by those before it.
The invariant is about runs of blank lines: each is claimed as a whole or not at all. It holds of
the banner and is kept by every search, and it is what makes it enough to look at the lowest blank
line.

The block that a search takes may start with blank lines, where the climbing has crossed them to a
comment that it could not take: `not_forall_first_line_not_blank`.

## Main definitions

* `KeepsRuns` — what is preserved: `KeepsRuns.append_range'` adds a block of lines,
  `keepsRuns_bannerComments` starts from the banner of the file.
* `CommentSearch` — one search, with the lines that are claimed before it; `TakesOnce` is what it
  does and `takesOnce` the proof.
* `CommentSearch.taken` — what the search gives.
* `CommentSearch.first` — the first line that it takes, and the index if it takes none.
* `CommentSearch.Takes` — the search takes line `i`.

## Main results

* `searches_takeOnce` — a whole sequence of searches: every search takes a block of lines right
  above its index, none of which has been taken before.
* `CommentSearch.exists_isTop` — the top of the block that is taken.
* `not_forall_first_line_not_blank` — the first line that is taken may be blank.
-/

namespace Sharpen

/-! ### Runs of blank lines -/

/-- **No run of blank lines is cut in two**: each is claimed as a whole or not at all. -/
def KeepsRuns (lines : List Text) (claimed : List Nat) : Prop :=
  ∀ first last, last ≤ lines.length →
    (∀ i, first ≤ i → i < last → isBlankLine lines i = true) →
      (∀ i, first ≤ i → i < last → i ∈ claimed) ∨ (∀ i, first ≤ i → i < last → i ∉ claimed)

section

variable {lines : List Text} {claimed : List Nat}

/-- It is enough to look at two lines at a time. -/
theorem keepsRuns_iff : KeepsRuns lines claimed ↔
    ∀ i, i + 1 < lines.length → isBlankLine lines i = true → isBlankLine lines (i + 1) = true →
      (i ∈ claimed ↔ i + 1 ∈ claimed) := by
  constructor
  · intro h i hi hblank hnext
    rcases h i (i + 2) hi (fun j hj hj' => by
      obtain rfl | rfl : j = i ∨ j = i + 1 := by omega
      exacts [hblank, hnext]) with hall | hnone
    · exact iff_of_true (hall i (by omega) (by omega)) (hall (i + 1) (by omega) (by omega))
    · exact iff_of_false (hnone i (by omega) (by omega)) (hnone (i + 1) (by omega) (by omega))
  · intro h first last hlast hblank
    have hsame : ∀ i, first ≤ i → i < last → (i ∈ claimed ↔ first ∈ claimed) := by
      intro i hle
      induction i, hle using Nat.le_induction with
      | base => exact fun _ => Iff.rfl
      | succ i hle ih =>
          intro hi
          have hpair := h i (by omega) (hblank i hle (by omega)) (hblank (i + 1) (by omega) hi)
          exact hpair.symm.trans (ih (by omega))
    by_cases hfirst : first ∈ claimed
    · exact Or.inl fun i hle hi => (hsame i hle hi).mpr hfirst
    · exact Or.inr fun i hle hi => fun hmem => hfirst ((hsame i hle hi).mp hmem)

/-- Where nothing is claimed, no run is cut. -/
theorem keepsRuns_nil (lines : List Text) : KeepsRuns lines [] :=
  fun _ _ _ _ => Or.inr fun _ _ _ => List.not_mem_nil

/-- A block of lines may be added that does not end in a run of blank lines and does not start in
the middle of one. -/
theorem KeepsRuns.append_range' (h : KeepsRuns lines claimed) {first last : Nat}
    (hfirst : first < last → ∀ i, i + 1 = first → isBlankLine lines first = true →
      isBlankLine lines i = false)
    (hlast : first < last → isBlankLine lines (last - 1) = false) :
    KeepsRuns lines (claimed ++ List.range' first (last - first)) := by
  rw [keepsRuns_iff] at h ⊢
  intro i hi hblank hnext
  simp only [List.mem_append, List.mem_range'_1, h i hi hblank hnext]
  refine or_congr_right ⟨fun hin => ?_, fun hin => ?_⟩
  · have hne : i ≠ last - 1 := by
      rintro rfl
      rw [hlast (by omega)] at hblank
      cases hblank
    omega
  · have hne : i + 1 ≠ first := by
      intro heq
      rw [hfirst (by omega) i heq (heq ▸ hnext)] at hblank
      cases hblank
    omega

end

/-! ### The banner -/

/-- What is dropped from the ends of some lines, and what is kept. -/
theorem exists_eq_trimBlankLines_append (ts : List Text) :
    ∃ below, ts = ts.takeWhile Text.isBlank ++ (trimBlankLines ts ++ below) := by
  obtain ⟨above, habove⟩ :=
    List.dropWhile_suffix Text.isBlank (l := (ts.dropWhile Text.isBlank).reverse)
  refine ⟨above.reverse, ?_⟩
  rw [trimBlankLines, ← List.reverse_append, habove, List.reverse_reverse,
    List.takeWhile_append_dropWhile]

/-- Without the blank lines around some lines, the last one is not blank. -/
theorem isBlank_getLast_trimBlankLines {ts : List Text} (h : trimBlankLines ts ≠ []) :
    ((trimBlankLines ts).getLast h).isBlank = false := by
  simp only [trimBlankLines, List.getLast_reverse]
  exact List.head_dropWhile_not _ _

/-- Nor is the first. -/
theorem isBlank_head_trimBlankLines {ts : List Text} (h : trimBlankLines ts ≠ []) :
    ((trimBlankLines ts).head h).isBlank = false := by
  obtain ⟨below, hts⟩ := exists_eq_trimBlankLines_append ts
  have hdrop : ts.dropWhile Text.isBlank = trimBlankLines ts ++ below :=
    List.append_cancel_left ((List.takeWhile_append_dropWhile).trans hts)
  have hne : ts.dropWhile Text.isBlank ≠ [] := by simp [hdrop, h]
  have hhead := List.head_dropWhile_not Text.isBlank hne
  simpa [hdrop, List.head_append_of_ne_nil h] using hhead

/-- The banner cuts no run of blank lines in two: it starts and ends with lines that are not
blank. -/
theorem keepsRuns_bannerComments (lines : List Text) :
    KeepsRuns lines (bannerComments lines).claimed := by
  rw [bannerComments]
  set opening := lines.take ((bannerSpan false lines).getD 0) with hopening
  obtain ⟨below, hts⟩ := exists_eq_trimBlankLines_append opening
  obtain ⟨rest, hlines⟩ : opening <+: lines := hopening ▸ List.take_prefix _ _
  rw [hts, List.append_assoc, List.append_assoc] at hlines
  by_cases hnil : trimBlankLines opening = []
  · simpa [takeLines, hnil] using keepsRuns_nil lines
  have hpos := List.length_pos_of_ne_nil hnil
  refine (keepsRuns_nil lines).append_range' (fun _ i _ hblank => ?_) (fun _ => ?_)
  · rw [isBlankLine, ← hlines, List.getD_append_right _ _ _ _ (Nat.le_refl _), Nat.sub_self,
      List.getD_append _ _ _ _ hpos, List.getD_eq_getElem _ _ hpos, List.getElem_zero,
      isBlank_head_trimBlankLines] at hblank
    cases hblank
  · rw [isBlankLine, ← hlines, List.getD_append_right _ _ _ _ (by omega),
      show ∀ a b : Nat, 0 < b → a + b - 1 - a = b - 1 from fun a b _ => by omega,
      List.getD_append _ _ _ _ (by omega), List.getD_eq_getElem _ _ (by omega),
      ← List.getLast_eq_getElem hnil, isBlank_getLast_trimBlankLines]
    exact hpos

/-! ### What a climb passes -/

section

variable {lines : List Text} {claimed : List Nat} {bottom n stop : Nat}

/-- No line that is climbed over has been claimed. Of the blank ones only the lowest is asked for;
the others follow it. -/
theorem Climbs.not_mem_claimed (hruns : KeepsRuns lines claimed) (hbottom : bottom ≤ lines.length)
    (h : Climbs lines claimed bottom n stop) : ∀ i, stop ≤ i → i < n → i ∉ claimed := by
  induction h with
  | stops => intro i hle hlt; omega
  | @comment first last stop hcomment hfree hclimbs ih =>
      intro i hle hlt
      by_cases hi : i < first
      · exact ih i hle hi
      · exact hfree i (by omega) (by omega)
  | @blanks n above stop hn habove hclimbs ih =>
      intro i hle hlt
      have hcross := habove.lt
      by_cases hi : i < above + 1
      · exact ih i hle hi
      · rcases hruns (above + 1) n (by omega) (fun j hj hjn => habove.blank j hj hjn)
          with hall | hnone
        · exact absurd (hall (n - 1) (by omega) (by omega)) habove.free_pred
        · exact hnone i (by omega) hlt

end

/-! ### One search -/

/-- **A search** for the comment above a line, with the lines that are claimed before it. -/
structure CommentSearch where
  claimed : List Nat
  index : Nat
deriving DecidableEq, Repr

namespace CommentSearch

variable (lines : List Text) (s : CommentSearch)

/-- What the search gives. -/
def taken : Collected :=
  collectComments lines s.index s.claimed

/-- The first line that it takes, and the index if it takes none. -/
def first : Nat :=
  climbComments lines s.claimed s.index s.index

/-- The search takes line `i`. -/
def Takes (i : Nat) : Prop :=
  s.first lines ≤ i ∧ i < s.index

/-- Line `i` is the first line that the search takes and that is not blank. -/
structure IsTop (i : Nat) : Prop where
  takes : s.Takes lines i
  notBlank : isBlankLine lines i = false
  blank : ∀ j, s.first lines ≤ j → j < i → isBlankLine lines j = true

/-- **What one search does.** It takes the lines from `first` down to its index, and claims just
these. They have not been claimed before, and the last of them is not blank. The first one is blank
where blank lines stand above the topmost comment line that has been taken, and above them the end
of a comment: it has been climbed to and then could not be taken. -/
structure TakesOnce : Prop where
  returns : collectComments? lines s.index s.claimed = some (s.taken lines)
  lines_eq : ((s.taken lines).lines, (s.taken lines).indent) =
    stripCommonIndent ((lines.take s.index).drop (s.first lines))
  claimed_eq : (s.taken lines).claimed =
    s.claimed ++ List.range' (s.first lines) (s.index - s.first lines)
  fresh : ∀ i, s.Takes lines i → i ∉ s.claimed
  isBlankLine_last : s.first lines < s.index → isBlankLine lines (s.index - 1) = false
  isBlankLine_first_iff : s.first lines < s.index → ∃ top, s.IsTop lines top ∧
    (isBlankLine lines (s.first lines) = true ↔ ∃ above, CommentAbove lines s.claimed top above)
  keepsRuns : KeepsRuns lines (s.taken lines).claimed

/-- The climb of the search. -/
theorem climbs_first : Climbs lines s.claimed s.index s.index (s.first lines) :=
  climbs_climbComments lines s.claimed s.index s.index

variable {lines s}

/-- **The top of the block that is taken.** Its first line is blank just if blank lines have been
crossed from its first comment line, and then they have been crossed to the line right above it. -/
theorem exists_isTop (htakes : s.first lines < s.index) : ∃ top, s.IsTop lines top ∧
    (isBlankLine lines (s.first lines) = true ↔ ∃ above, CommentAbove lines s.claimed top above) ∧
    (isBlankLine lines (s.first lines) = true →
      ∃ above, s.first lines = above + 1 ∧ isBlankLine lines above = false) := by
  obtain ⟨top, ⟨hbottom, hstop⟩, -, hiff⟩ :=
    (s.climbs_first lines).exists_top (⟨Or.inl rfl, Or.inl rfl⟩ :
      Climbs.ReachedFrom lines s.claimed s.index s.index s.index)
  obtain ⟨hlt, hnot⟩ : top < s.index ∧ isBlankLine lines top = false := by
    rcases hbottom with rfl | h
    · rcases hstop with heq | ⟨hlt, -⟩ <;> omega
    · exact h
  rcases hstop with heq | ⟨-, above, heq, habove⟩
  · refine ⟨top, ⟨⟨heq.le, hlt⟩, hnot, fun j hj hjt => by omega⟩, ?_, ?_⟩
    · rw [heq, hnot, ← hiff hlt, heq]
      simp
    · rw [heq, hnot]
      exact Bool.noConfusion
  · have hcross := habove.lt
    have hblank := habove.blank (above + 1) (Nat.lt_succ_self _) hcross
    exact ⟨top, ⟨⟨by omega, hlt⟩, hnot, fun j hj hjt => habove.blank j (by omega) hjt⟩,
      iff_of_true (heq ▸ hblank) ⟨above, habove⟩, fun _ => ⟨above, heq, habove.notBlank⟩⟩

/-- **One search takes every line once.** -/
theorem takesOnce (hruns : KeepsRuns lines s.claimed) (hindex : s.index ≤ lines.length) :
    s.TakesOnce lines := by
  have hclimbs := s.climbs_first lines
  refine ⟨?_, rfl, rfl, fun i hi => hclimbs.not_mem_claimed hruns hindex i hi.1 hi.2,
    hclimbs.isBlankLine_pred, fun htakes => ?_, hruns.append_range' (fun htakes i hi hblank => ?_)
    hclimbs.isBlankLine_pred⟩
  · simp [collectComments?, hindex, taken]
  · obtain ⟨top, htop, hiff, -⟩ := exists_isTop htakes
    exact ⟨top, htop, hiff⟩
  · obtain ⟨-, -, -, habove⟩ := exists_isTop htakes
    obtain ⟨above, heq, hnot⟩ := habove hblank
    obtain rfl : i = above := by
      have : climbComments lines s.claimed s.index s.index = above + 1 := heq
      omega
    exact hnot

end CommentSearch

/-! ### All searches -/

/-- The searches for the comments above some lines, one after another. -/
def searches (lines : List Text) (claimed : List Nat) : List Nat → List CommentSearch
  | [] => []
  | index :: indexes =>
    ⟨claimed, index⟩ :: searches lines (collectComments lines index claimed).claimed indexes

section

variable {lines : List Text} {claimed indexes : List Nat}

/-- **Every line is taken once.** Neither the empty list of claimed lines nor the banner cuts a run
of blank lines in two. From such a list on, every search of a sequence takes a block of lines that
have not been claimed at the start, nor taken by any search before it. -/
theorem searches_takeOnce (hruns : KeepsRuns lines claimed)
    (hindexes : ∀ index ∈ indexes, index ≤ lines.length) :
    (KeepsRuns lines [] ∧ KeepsRuns lines (bannerComments lines).claimed) ∧
    (∀ s ∈ searches lines claimed indexes,
      s.TakesOnce lines ∧ ∀ i, s.Takes lines i → i ∉ claimed) ∧
    (searches lines claimed indexes).Pairwise fun s t =>
      ∀ i, s.Takes lines i → ¬t.Takes lines i := by
  refine ⟨⟨keepsRuns_nil lines, keepsRuns_bannerComments lines⟩, ?_⟩
  induction indexes generalizing claimed with
  | nil => simp [searches]
  | cons index indexes ih =>
      have hfirst := CommentSearch.takesOnce (s := ⟨claimed, index⟩) hruns (hindexes _ (by simp))
      obtain ⟨hlater, hpairwise⟩ := ih hfirst.keepsRuns fun i hi => hindexes i (by simp [hi])
      refine ⟨fun s hs => ?_, List.pairwise_cons.mpr ⟨fun s hs i hi hi' => ?_, hpairwise⟩⟩
      · rcases List.mem_cons.mp hs with rfl | hs
        · exact ⟨hfirst, hfirst.fresh⟩
        · obtain ⟨honce, hnot⟩ := hlater s hs
          exact ⟨honce, fun i hi hmem => hnot i hi (List.mem_append_left _ hmem)⟩
      · refine (hlater s hs).2 i hi' ?_
        rw [hfirst.claimed_eq, List.mem_append, List.mem_range'_1]
        have := hi.1
        have := hi.2
        omega

end

/-- Two comments with blank lines between and within them, and one below; the second search for the
first two finds them taken. -/
theorem searches_takeOnce_twoTypes :
    ∃ lines : List Text, lines =
        ["// a", "", "/* b", "", "*/", "class A;", "// c", "class B;"] ∧
      (searches lines [] [5, 7, 5]).map (fun s => (s.first lines, s.index)) =
        [(0, 5), (6, 7), (5, 5)] ∧
      (∀ s ∈ searches lines [] [5, 7, 5], s.TakesOnce lines ∧ ∀ i, s.Takes lines i → i ∉ []) ∧
      (searches lines [] [5, 7, 5]).Pairwise fun s t => ∀ i, s.Takes lines i → ¬t.Takes lines i :=
  ⟨_, rfl, by decide +kernel, (searches_takeOnce (keepsRuns_nil _) (by decide)).2⟩

/-- **The first line that is taken may be blank.** The line of code ends with a comment, so the
blank line below it is crossed; but a comment behind code is not one that can be taken. -/
theorem not_forall_first_line_not_blank :
    ¬∀ (lines : List Text) (claimed indexes : List Nat), KeepsRuns lines claimed →
      (∀ index ∈ indexes, index ≤ lines.length) → ∀ s ∈ searches lines claimed indexes,
        s.first lines < s.index → isBlankLine lines (s.first lines) = false := by
  intro h
  have hfirst := h ["int x; /* c */", "", "// b", "void f();"] [] [3] (keepsRuns_nil _) (by decide)
    ⟨[], 3⟩ (by simp [searches])
  exact absurd (hfirst (by decide +kernel)) (by decide +kernel)

end Sharpen
