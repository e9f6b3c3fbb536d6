import Mathlib.Data.List.DropRight
import Sharpen.Proofs.Code.Nested
import Sharpen.Proofs.Code.Zones
import Sharpen.Proofs.Decl.TakenOnce

/-!
# The Lines of a Block

A captured block has lines at some place of a file, with tabs and with blanks that nobody sees. What
is left of them without their place is its body: no tabs, no blanks behind a line, no blank lines
around it, and no indentation that all of it shares. Whether a block is normalised or written at a
level, the lines come from its body alone.

Bodies are in a normal form: a body is its own body, and moving a block does not change the body it
has. The margin is what makes this work. It is the least indentation of the lines that are not
blank, so moving all lines by one width moves the margin by the same, and taking it off undoes the
move.

## Main definitions

* `IsSettled` — a line without tabs and without blanks at its end; `settleLine` makes one.
* `bodyLines` — the body of a block; `IsBody` says what it is like.
* `margin` — the indentation that the lines with something in them share.
* `coreLines` — the lines of a block, settled, without the blank ones around them.
* `indentLine`, `dedent` — moving lines to the right, and back as far as they go.

## Main results

* `dedent_map_indentLine`, `map_indentLine_dedent` — the two undo each other.
* `normalizeBlock_eq` — a block is normalised to its body.
* `IsBody.bodyLines_join` — a body that is written as it is has itself as its body.
-/

namespace Sharpen

/-! ### Settled lines -/

/-- A line as it is moved: tabs are spaces, and no blanks end it. -/
def settleLine (l : Text) : Text :=
  (expandTabs l).trimEnd

/-- A line with nothing to settle. -/
structure IsSettled (l : Text) : Prop where
  tab_notMem : '\t' ∉ l
  trimEnd_eq : l.trimEnd = l

/-- The spaces that a line starts with. -/
def leadingSpaces (l : Text) : Nat :=
  (l.takeWhile (· == ' ')).length

section

variable {l : Text}

/-- No tab is left when tabs are written as spaces. -/
theorem tab_notMem_expandTabs (l : Text) : '\t' ∉ expandTabs l := by
  rw [expandTabs, List.mem_flatMap]
  rintro ⟨c, -, hc⟩
  split at hc
  · exact absurd (List.eq_of_mem_replicate hc) (by decide)
  · rename_i htab
    exact htab (beq_iff_eq.mpr (List.mem_singleton.mp hc).symm)

/-- A line without tabs stays as it is. -/
theorem expandTabs_eq (h : '\t' ∉ l) : expandTabs l = l := by
  have hsame : ∀ c ∈ l, (if c == '\t' then List.replicate tabWidth ' ' else [c]) = [c] := by
    intro c hc
    rw [if_neg]
    intro htab
    exact h (beq_iff_eq.mp htab ▸ hc)
  rw [expandTabs, List.flatMap_congr hsame, List.flatMap_singleton']

/-- A line is blank with its tabs as spaces exactly when it was blank before. -/
theorem isBlank_expandTabs (l : Text) : (expandTabs l).isBlank = l.isBlank := by
  rw [Text.isBlank, expandTabs, List.all_flatMap]
  refine List.all_congr rfl fun c => ?_
  by_cases hc : c = '\t'
  · rw [hc]
    decide
  · simp [hc]

/-- A settled line has nothing to settle. -/
theorem isSettled_settleLine (l : Text) : IsSettled (settleLine l) where
  tab_notMem h := tab_notMem_expandTabs l ((List.rdropWhile_prefix isBlank _).subset h)
  trimEnd_eq := Text.trimEnd_trimEnd (expandTabs l)

/-- A line with nothing to settle stays as it is. -/
theorem IsSettled.settleLine_eq (h : IsSettled l) : settleLine l = l := by
  rw [settleLine, expandTabs_eq h.tab_notMem, h.trimEnd_eq]

/-- **Nothing is left of a blank line, and of no other.** -/
theorem isEmpty_settleLine (l : Text) : (settleLine l).isEmpty = l.isBlank := by
  rw [settleLine, Text.isEmpty_trimEnd, isBlank_expandTabs]

/-- It is blank only when it is empty, for no blanks end it. -/
theorem IsSettled.isBlank_eq (h : IsSettled l) : l.isBlank = l.isEmpty := by
  rw [← Text.isEmpty_trimEnd, h.trimEnd_eq]

/-- Settling a line makes it neither blank nor not. -/
theorem isBlank_settleLine (l : Text) : (settleLine l).isBlank = l.isBlank := by
  rw [(isSettled_settleLine l).isBlank_eq, isEmpty_settleLine]

/-- The width of the blanks that a settled line starts with is the number of its leading spaces. -/
theorem IsSettled.leadingWidth_eq (h : IsSettled l) : leadingWidth l = leadingSpaces l := by
  rw [leadingWidth, expandTabs_eq h.tab_notMem, leadingSpaces]

/-- Spaces in front of a line add to those that it starts with. -/
theorem leadingSpaces_replicate_append (n : Nat) (l : Text) :
    leadingSpaces (List.replicate n ' ' ++ l) = n + leadingSpaces l := by
  rw [leadingSpaces, List.takeWhile_append_of_pos (by simp), List.length_append,
    List.length_replicate, leadingSpaces]

/-- A line starts with as many spaces as are counted. -/
theorem replicate_append_drop {n : Nat} (h : n ≤ leadingSpaces l) :
    List.replicate n ' ' ++ l.drop n = l := by
  have htake : l.take n = List.replicate n ' ' := by
    refine List.eq_replicate_iff.mpr ⟨?_, fun c hc => ?_⟩
    · exact List.length_take_of_le (h.trans (List.takeWhile_prefix _).length_le)
    · have hcut : l.take n <+: l.takeWhile (· == ' ') :=
        List.prefix_of_prefix_length_le (List.take_prefix n l) (List.takeWhile_prefix _)
          ((List.length_take_le n l).trans h)
      exact beq_iff_eq.mp (List.mem_takeWhile_imp (p := (· == ' ')) (hcut.subset hc))
  rw [← htake, List.take_append_drop]

end

/-! ### Moving lines sideways -/

/-- A line moved to the right by some spaces; an empty line stays empty. -/
def indentLine (n : Nat) (l : Text) : Text :=
  if l.isEmpty then [] else List.replicate n ' ' ++ l

/-- The indentation that the lines with something in them share. -/
def margin (ls : List Text) : Nat :=
  leastWidth ((ls.filter fun l => !l.isEmpty).map leadingWidth)

/-- The lines without the indentation that they share. -/
def dedent (ls : List Text) : List Text :=
  ls.map fun l => l.drop (margin ls)

@[simp]
theorem indentLine_nil (n : Nat) : indentLine n [] = [] :=
  rfl

/-- A line that is not empty moves to the right by as many spaces as it is told. -/
theorem indentLine_of_ne_nil (n : Nat) {l : Text} (h : l ≠ []) :
    indentLine n l = List.replicate n ' ' ++ l := by
  simp [indentLine, h]

/-- Moving a line twice moves it by the sum. -/
theorem indentLine_add (m n : Nat) (l : Text) :
    indentLine (m + n) l = indentLine m (indentLine n l) := by
  by_cases hl : l = []
  · rw [hl, indentLine_nil, indentLine_nil, indentLine_nil]
  · rw [indentLine_of_ne_nil n hl, indentLine_of_ne_nil (m + n) hl,
      indentLine_of_ne_nil m (by simp [hl]), List.replicate_add, List.append_assoc]

/-- An empty line stays empty when it is moved, and no other becomes empty. -/
@[simp]
theorem isEmpty_indentLine (n : Nat) (l : Text) : (indentLine n l).isEmpty = l.isEmpty := by
  cases l with
  | nil => rfl
  | cons c r => simp [indentLine]

/-- Moving a line makes it neither blank nor not. -/
theorem isBlank_indentLine (n : Nat) (l : Text) : (indentLine n l).isBlank = l.isBlank := by
  cases l with
  | nil => rfl
  | cons c r =>
      have hspaces : Text.isBlank (List.replicate n ' ') = true := by
        rw [Text.isBlank, List.all_eq_true]
        exact fun d hd => List.eq_of_mem_replicate hd ▸ rfl
      rw [indentLine_of_ne_nil n (List.cons_ne_nil c r), Text.isBlank, List.all_append]
      exact (congrArg (· && _) hspaces).trans (Bool.true_and _)

/-- A settled line is settled wherever it is moved. -/
theorem IsSettled.indentLine {l : Text} (h : IsSettled l) (n : Nat) :
    IsSettled (Sharpen.indentLine n l) := by
  by_cases hl : l = []
  · rw [hl, indentLine_nil]
    exact ⟨List.not_mem_nil, rfl⟩
  · rw [indentLine_of_ne_nil n hl]
    exact ⟨by simp [h.tab_notMem], Text.trimEnd_append h.trimEnd_eq hl _⟩

/-- Two lines that are moved by the same and come out the same were the same. -/
theorem indentLine_injective (n : Nat) : Function.Injective (indentLine n) := by
  intro l k h
  by_cases hl : l = []
  · rw [hl, indentLine_nil] at h
    rw [hl, eq_comm, ← List.isEmpty_iff, ← isEmpty_indentLine n, ← h]
    rfl
  · have hk : k ≠ [] := by
      rintro rfl
      exact hl (List.isEmpty_iff.mp ((isEmpty_indentLine n l).symm.trans (h ▸ rfl)))
    rw [indentLine_of_ne_nil n hl, indentLine_of_ne_nil n hk] at h
    exact List.append_cancel_left h

/-- What is left of a settled line behind spaces. -/
theorem IsSettled.drop {l : Text} (h : IsSettled l) (n : Nat) : IsSettled (l.drop n) where
  tab_notMem htab := h.tab_notMem (List.mem_of_mem_drop htab)
  trimEnd_eq := by
    have hlast := List.rdropWhile_eq_self_iff.mp h.trimEnd_eq
    refine List.rdropWhile_eq_self_iff.mpr fun hne => ?_
    rw [List.getLast_drop]
    exact hlast _

/-- Spaces alone are no settled line. -/
theorem IsSettled.drop_ne_nil {l : Text} (h : IsSettled l) (hne : l ≠ []) {n : Nat}
    (hn : n ≤ leadingSpaces l) : l.drop n ≠ [] := by
  intro hdrop
  have hspaces := replicate_append_drop hn
  rw [hdrop, List.append_nil] at hspaces
  have hblank : l.isBlank = true := by
    rw [← hspaces, Text.isBlank, List.all_eq_true]
    exact fun d hd => List.eq_of_mem_replicate hd ▸ rfl
  rw [h.isBlank_eq] at hblank
  exact hne (List.isEmpty_iff.mp hblank)

/-- The lines that are not blank. -/
def solidLines (ls : List Text) : List Text :=
  ls.filter fun l => !l.isBlank

/-- The solid lines of a block are those that are not blank. -/
theorem mem_solidLines {ls : List Text} {l : Text} :
    l ∈ solidLines ls ↔ l ∈ ls ∧ l.isBlank = false := by
  simp [solidLines]

/-- What leaves blank lines blank and others not changes which lines are solid in no way. -/
theorem solidLines_map {f : Text → Text} (hf : ∀ l, (f l).isBlank = l.isBlank) (ls : List Text) :
    solidLines (ls.map f) = (solidLines ls).map f := by
  have hsame : ((fun l : Text => !l.isBlank) ∘ f) = fun l => !l.isBlank :=
    funext fun l => congrArg (!·) (hf l)
  rw [solidLines, List.filter_map, hsame, solidLines]

/-- The solid lines are moved as a whole. -/
theorem solidLines_map_indentLine (n : Nat) (ls : List Text) :
    solidLines (ls.map (indentLine n)) = (solidLines ls).map (List.replicate n ' ' ++ ·) := by
  rw [solidLines_map (isBlank_indentLine n)]
  refine List.map_congr_left fun l hl => indentLine_of_ne_nil n ?_
  rintro rfl
  exact absurd (mem_solidLines.mp hl).2 (by decide)

section

variable {ls : List Text} (hls : ∀ l ∈ ls, IsSettled l)

include hls

/-- A settled line that is not empty is solid. -/
theorem IsSettled.mem_solidLines {l : Text} (hl : l ∈ ls) (hne : l ≠ []) : l ∈ solidLines ls := by
  refine Sharpen.mem_solidLines.mpr ⟨hl, ?_⟩
  rw [(hls l hl).isBlank_eq]
  simpa using hne

/-- Settled lines are blank where they are empty, and their spaces are all that they start with. -/
theorem margin_eq_leastWidth : margin ls = leastWidth ((solidLines ls).map leadingSpaces) := by
  have hsolid : (ls.filter fun l => !l.isEmpty) = solidLines ls :=
    List.filter_congr fun l hl => congrArg (!·) (hls l hl).isBlank_eq.symm
  rw [margin, hsolid]
  refine congrArg leastWidth (List.map_congr_left fun l hl => ?_)
  exact (hls l (Sharpen.mem_solidLines.mp hl).1).leadingWidth_eq

/-- The smallest of the widths, if there is one. -/
theorem min?_leadingSpaces {l : Text} (hl : l ∈ solidLines ls) :
    ((solidLines ls).map leadingSpaces).min? = some (margin ls) := by
  obtain ⟨n, hn⟩ := Option.isSome_iff_exists.mp
    (List.isSome_min?_of_mem (List.mem_map_of_mem (f := leadingSpaces) hl))
  rw [margin_eq_leastWidth hls, leastWidth, hn, Option.getD_some]

/-- The margin of a block is no wider than the indentation of any line that is not empty. -/
theorem margin_le {l : Text} (hl : l ∈ ls) (hne : l ≠ []) : margin ls ≤ leadingSpaces l := by
  have hsolid := IsSettled.mem_solidLines hls hl hne
  exact (List.min?_eq_some_iff.mp (min?_leadingSpaces hls hsolid)).2 _ (List.mem_map_of_mem hsolid)

/-- A block of blank lines has no margin. -/
theorem margin_of_solidLines_eq_nil (h : solidLines ls = []) : margin ls = 0 := by
  rw [margin_eq_leastWidth hls, h]
  rfl

/-- Lines that are moved share so much more indentation. -/
theorem margin_map_indentLine (n : Nat) (hne : solidLines ls ≠ []) :
    margin (ls.map (indentLine n)) = n + margin ls := by
  have hmoved : ∀ l ∈ ls.map (indentLine n), IsSettled l := by
    intro l hl
    obtain ⟨k, hk, rfl⟩ := List.mem_map.mp hl
    exact (hls k hk).indentLine n
  obtain ⟨l, hl⟩ := List.exists_mem_of_ne_nil _ hne
  obtain ⟨hmem, hleast⟩ := List.min?_eq_some_iff.mp (min?_leadingSpaces hls hl)
  have hwidths : (solidLines (ls.map (indentLine n))).map leadingSpaces
      = ((solidLines ls).map leadingSpaces).map (n + ·) := by
    rw [solidLines_map_indentLine, List.map_map, List.map_map]
    exact List.map_congr_left fun k _ => leadingSpaces_replicate_append n k
  have hmin : (((solidLines ls).map leadingSpaces).map (n + ·)).min? = some (n + margin ls) := by
    refine List.min?_eq_some_iff.mpr ⟨List.mem_map_of_mem hmem, fun w hw => ?_⟩
    obtain ⟨v, hv, rfl⟩ := List.mem_map.mp hw
    exact Nat.add_le_add_left (hleast v hv) n
  rw [margin_eq_leastWidth hmoved, hwidths, leastWidth, hmin, Option.getD_some]

/-- **Moving lines to the right does not change what they are without their place.** -/
theorem dedent_map_indentLine (n : Nat) : dedent (ls.map (indentLine n)) = dedent ls := by
  by_cases hne : solidLines ls = []
  · have hnil : ls.map (indentLine n) = ls := by
      refine (List.map_congr_left fun l hl => ?_).trans (List.map_id ls)
      by_cases hl' : l = []
      · rw [hl']
        rfl
      · exact absurd (IsSettled.mem_solidLines hls hl hl') (hne ▸ List.not_mem_nil)
    rw [hnil]
  · rw [dedent, margin_map_indentLine hls n hne, List.map_map, dedent]
    refine List.map_congr_left fun k _ => ?_
    by_cases hk : k = []
    · rw [hk, Function.comp_apply, indentLine_nil, List.drop_nil, List.drop_nil]
    · rw [Function.comp_apply, indentLine_of_ne_nil n hk, ← List.drop_drop,
        List.drop_left' (List.length_replicate)]

/-- **Moving them back to their place gives them again.** -/
theorem map_indentLine_dedent : (dedent ls).map (indentLine (margin ls)) = ls := by
  rw [dedent, List.map_map]
  refine (List.map_congr_left fun l hl => ?_).trans (List.map_id ls)
  by_cases hne : l = []
  · rw [hne, Function.comp_apply, List.drop_nil]
    rfl
  · have hle := margin_le hls hl hne
    rw [Function.comp_apply, indentLine_of_ne_nil _ ((hls l hl).drop_ne_nil hne hle),
      replicate_append_drop hle]
    rfl

/-- Settled lines are settled when their margin is taken off. -/
theorem isSettled_dedent : ∀ l ∈ dedent ls, IsSettled l := by
  intro l hl
  obtain ⟨k, hk, rfl⟩ := List.mem_map.mp hl
  exact (hls k hk).drop _

/-- They have no margin any more. -/
theorem margin_dedent : margin (dedent ls) = 0 := by
  have hdedent := isSettled_dedent hls
  by_cases hne : solidLines (dedent ls) = []
  · exact margin_of_solidLines_eq_nil hdedent hne
  · have hplace := margin_map_indentLine hdedent (margin ls) hne
    rw [map_indentLine_dedent hls] at hplace
    omega

end

/-! ### Blank lines around a block -/

/-- The blank lines around a block are the same after a change that leaves blank lines blank and
others not. -/
theorem trimBlankLines_map {f : Text → Text} (hf : ∀ l, (f l).isBlank = l.isBlank)
    (ls : List Text) : trimBlankLines (ls.map f) = (trimBlankLines ls).map f := by
  have hcomp : Text.isBlank ∘ f = Text.isBlank := funext hf
  rw [trimBlankLines, List.dropWhile_map, hcomp, ← List.map_reverse, List.dropWhile_map, hcomp,
    ← List.map_reverse, trimBlankLines]

/-- Nothing is dropped from lines that start and end with code, and only from those. -/
theorem trimBlankLines_eq_self_iff {ls : List Text} : trimBlankLines ls = ls ↔
    (∀ l ∈ ls.head?, l.isBlank = false) ∧ ∀ l ∈ ls.getLast?, l.isBlank = false := by
  cases ls with
  | nil => simp [trimBlankLines]
  | cons k ks =>
      constructor
      · intro h
        have hne : trimBlankLines (k :: ks) ≠ [] := by simp [h]
        have hhead := isBlank_head_trimBlankLines hne
        have hlast := isBlank_getLast_trimBlankLines hne
        simp only [h] at hhead hlast
        refine ⟨fun l hl => ?_, fun l hl => ?_⟩
        · rwa [← Option.some.inj hl]
        · rw [List.getLast?_eq_some_getLast (List.cons_ne_nil k ks)] at hl
          rwa [← Option.some.inj hl]
      · rintro ⟨hhead, hlast⟩
        have hstart : (k :: ks).dropWhile Text.isBlank = k :: ks :=
          List.dropWhile_cons_of_neg (by simp [hhead k rfl])
        rw [trimBlankLines, hstart]
        refine List.rdropWhile_eq_self_iff.mpr fun hne => ?_
        simp [hlast _ (List.getLast?_eq_some_getLast hne)]

/-- Without the blank lines around it, a block has none to take off. -/
theorem trimBlankLines_trimBlankLines (ls : List Text) :
    trimBlankLines (trimBlankLines ls) = trimBlankLines ls := by
  by_cases hne : trimBlankLines ls = []
  · rw [hne]
    rfl
  · refine trimBlankLines_eq_self_iff.mpr ⟨fun l hl => ?_, fun l hl => ?_⟩
    · rw [List.head?_eq_some_head hne] at hl
      exact Option.some.inj hl ▸ isBlank_head_trimBlankLines hne
    · rw [List.getLast?_eq_some_getLast hne] at hl
      exact Option.some.inj hl ▸ isBlank_getLast_trimBlankLines hne

/-- The solid lines are all kept. -/
theorem solidLines_trimBlankLines (ls : List Text) :
    solidLines (trimBlankLines ls) = solidLines ls := by
  have hdrop : ∀ ls : List Text, solidLines (ls.dropWhile Text.isBlank) = solidLines ls := by
    intro ls
    have hblank : solidLines (ls.takeWhile Text.isBlank) = [] :=
      List.filter_eq_nil_iff.mpr fun l hl => by simp [List.mem_takeWhile_imp hl]
    have hparts := congrArg solidLines
      (List.takeWhile_append_dropWhile (p := Text.isBlank) (l := ls))
    rw [solidLines, List.filter_append] at hparts
    rw [← hparts]
    exact (congrArg (· ++ _) hblank).symm
  rw [trimBlankLines, solidLines, List.filter_reverse]
  exact List.reverse_eq_iff.mpr ((hdrop _).trans
    ((List.filter_reverse).trans (congrArg List.reverse (hdrop ls))))

/-! ### The body of a block -/

/-- The lines of a block, settled, without the blank ones around them. -/
def coreLines (t : Text) : List Text :=
  (trimBlankLines (Text.lines t.normalizeNewlines)).map settleLine

/-- **The body of a block**: its lines without their place. -/
def bodyLines (t : Text) : List Text :=
  dedent (coreLines t)

/-- Lines without a place. -/
structure IsBody (ls : List Text) : Prop where
  isSettled : ∀ l ∈ ls, IsSettled l
  covers : ∀ l ∈ ls, LineClass.oneLine.Covers l
  trim_eq : trimBlankLines ls = ls
  margin_eq : margin ls = 0

/-- The core lines of a block are settled. -/
theorem isSettled_coreLines (t : Text) : ∀ l ∈ coreLines t, IsSettled l := by
  intro l hl
  obtain ⟨k, -, rfl⟩ := List.mem_map.mp hl
  exact isSettled_settleLine k

/-- The core lines are those of the body, moved to the right by the margin. -/
theorem map_indentLine_bodyLines (t : Text) :
    (bodyLines t).map (indentLine (margin (coreLines t))) = coreLines t :=
  map_indentLine_dedent (isSettled_coreLines t)

/-- The body of a block is a body. -/
theorem isBody_bodyLines (t : Text) : IsBody (bodyLines t) where
  isSettled := isSettled_dedent (isSettled_coreLines t)
  covers := by
    intro l hl
    obtain ⟨k, hk, rfl⟩ := List.mem_map.mp hl
    obtain ⟨j, hj, rfl⟩ := List.mem_map.mp hk
    have hline := LineClass.covers_lines (LineClass.covers_normalizeNewlines t) j
      (LineClass.mem_of_mem_trimBlankLines hj)
    have hsettled : LineClass.oneLine.Covers (settleLine j) :=
      LineClass.covers_trimEnd (LineClass.covers_expandTabs hline)
    exact hsettled.subset (List.drop_subset _ _)
  trim_eq := by
    have hcore : trimBlankLines (coreLines t) = coreLines t := by
      rw [coreLines, trimBlankLines_map isBlank_settleLine, trimBlankLines_trimBlankLines]
    rw [← map_indentLine_bodyLines t, trimBlankLines_map (isBlank_indentLine _)] at hcore
    exact List.map_injective_iff.mpr (indentLine_injective _) hcore
  margin_eq := margin_dedent (isSettled_coreLines t)

/-- A body has no margin to take off. -/
theorem IsBody.dedent_eq {ls : List Text} (h : IsBody ls) : dedent ls = ls := by
  rw [dedent, h.margin_eq]
  exact List.map_id ls

/-- **A block is normalised to its body.** -/
theorem normalizeBlock_eq (t : Text) :
    normalizeBlock t = (Text.join "\n" (bodyLines t), margin (coreLines t)) := by
  have hmargin : leastWidth ((solidLines (coreLines t)).map leadingWidth)
      = margin (coreLines t) := by
    rw [margin_eq_leastWidth (isSettled_coreLines t)]
    refine congrArg leastWidth (List.map_congr_left fun l hl => ?_)
    exact (isSettled_coreLines t l (mem_solidLines.mp hl).1).leadingWidth_eq
  have hbody : ((coreLines t).map fun l => if l.isBlank then [] else l.drop (margin (coreLines t)))
      = bodyLines t := by
    refine List.map_congr_left fun l hl => ?_
    rw [(isSettled_coreLines t l hl).isBlank_eq]
    split
    · rename_i hempty
      rw [List.isEmpty_iff.mp hempty, List.drop_nil]
    · rfl
  change (Text.join "\n" ((coreLines t).map fun l => if l.isBlank then [] else l.drop
    (leastWidth ((solidLines (coreLines t)).map leadingWidth))), _) = _
  rw [hmargin, hbody]
  exact congrArg _ hmargin

/-! ### Lines written below each other -/

/-- The lines of a block that is written line by line. -/
theorem coreLines_join {ls : List Text} (h : ∀ l ∈ ls, LineClass.oneLine.Covers l) :
    coreLines (Text.join "\n" ls) = (trimBlankLines ls).map settleLine := by
  have hreturn : LineClass.noReturn.Covers (Text.join "\n" ls) :=
    (LineClass.covers_join (LineClass.covers_noReturn_iff.mpr (by decide))).mpr fun l hl =>
      (h l hl).of_oneLine
  rw [coreLines, normalizeNewlines_eq (LineClass.covers_noReturn_iff.mp hreturn)]
  cases ls with
  | nil => rfl
  | cons l ls =>
      rw [Text.lines_join (List.cons_ne_nil l ls) fun k hk =>
        (LineClass.covers_oneLine_iff.mp (h k hk)).1]

/-- A body that is written as it is has these lines and no others. -/
theorem IsBody.coreLines_join {ls : List Text} (h : IsBody ls) :
    coreLines (Text.join "\n" ls) = ls := by
  rw [Sharpen.coreLines_join h.covers, h.trim_eq]
  exact (List.map_congr_left fun l hl => (h.isSettled l hl).settleLine_eq).trans (List.map_id ls)

/-- **So it has itself as its body.** -/
theorem IsBody.bodyLines_join {ls : List Text} (h : IsBody ls) :
    bodyLines (Text.join "\n" ls) = ls := by
  rw [bodyLines, h.coreLines_join, h.dedent_eq]

end Sharpen
