import Mathlib.Data.List.Chain
import Sharpen.CSharp.Layout
import Sharpen.Proofs.Code.BlockLines

/-!
# Blocks at a Level

A block is written at a level by moving its body there: the least indentation of its lines becomes
that of the level, and of every run of blank lines inside it one is left, which is as long as the
indentation. Nothing else of it changes, so it does not matter what place the block has had, or how
often it has been moved before.

The lines of a block are described without a computation: where code starts and ends, how wide the
margin is, and what the blank lines are like. From the description follows what makes it safe to
move blocks about: writing a block at one level and then at another is the same as writing it at the
second one, and normalizing it in between makes no difference.

## Main definitions

* `codeLines` — the solid lines of a text, settled.
* `IsBlockAt` — lines at a margin: they start and end with code, their blank lines stand alone and
  are as long as the margin, and the margin is the least indentation of the others.

## Main results

* `collapseFrom_map`, `collapseFrom_collapseFrom` — what leaving out blank lines goes together with.
* `reindent_eq` — a block at a level, made of its body.
* `reindent_exact` — what it looks like, line by line.
* `bodyLines_join_reindent` — a block that has been moved keeps its body, up to the blank lines that
  have been left out.
* `reindent_pathIndependent` — so moving it twice is moving it once.
-/

namespace Sharpen

/-! ### Runs of blank lines -/

section

variable {blank : Text} (hblank : blank.isBlank = true) (afterBlank : Bool) (ls : List Text)

/-- Leaving out blank lines does not depend on what the others are. -/
theorem collapseFrom_map {f : Text → Text} (hf : ∀ l, (f l).isBlank = l.isBlank) (blank : Text) :
    collapseFrom (f blank) afterBlank (ls.map f) = (collapseFrom blank afterBlank ls).map f := by
  induction ls generalizing afterBlank with
  | nil => rfl
  | cons l r ih =>
      simp only [List.map_cons, collapseFrom, hf, ih]
      split_ifs <;> rfl

/-- A line that is not blank stays at the end. -/
theorem collapseFrom_concat (blank : Text) {l : Text} (hl : l.isBlank = false) :
    collapseFrom blank afterBlank (ls ++ [l]) = collapseFrom blank afterBlank ls ++ [l] := by
  induction ls generalizing afterBlank with
  | nil => simp [collapseFrom, hl]
  | cons k r ih =>
      simp only [List.cons_append, collapseFrom, ih]
      split_ifs <;> rfl

/-- No two blank lines are left below each other, and none is left behind one before the lines. -/
theorem isChain_collapseFrom (blank : Text) :
    (collapseFrom blank afterBlank ls).IsChain (fun k l => k.isBlank = false ∨ l.isBlank = false) ∧
      (afterBlank = true → ∀ l ∈ (collapseFrom blank afterBlank ls).head?, l.isBlank = false) := by
  induction ls generalizing afterBlank with
  | nil => simp [collapseFrom]
  | cons l r ih =>
      obtain ⟨hchain, hhead⟩ := ih true
      by_cases hl : l.isBlank = true
      · cases afterBlank with
        | true => simpa [collapseFrom, hl] using ih true
        | false =>
            simp only [collapseFrom, hl, if_true, Bool.false_eq_true, if_false]
            refine ⟨List.isChain_cons.mpr ⟨fun k hk => Or.inr (hhead rfl k hk), hchain⟩, ?_⟩
            exact fun h => absurd h (by decide)
      · have hl : l.isBlank = false := by simpa using hl
        simp only [collapseFrom, hl, Bool.false_eq_true, if_false]
        exact ⟨List.isChain_cons.mpr ⟨fun k _ => Or.inl hl, (ih false).1⟩, by simp [hl]⟩

include hblank

/-- Leaving out blank lines once is enough. -/
theorem collapseFrom_collapseFrom (blank' : Text) :
    collapseFrom blank' afterBlank (collapseFrom blank afterBlank ls)
      = collapseFrom blank' afterBlank ls := by
  induction ls generalizing afterBlank with
  | nil => rfl
  | cons l r ih =>
      by_cases hl : l.isBlank = true
      · cases afterBlank <;> simp [collapseFrom, hl, hblank, ih]
      · simp [collapseFrom, hl, ih]

/-- The solid lines are all there. -/
theorem solidLines_collapseFrom :
    solidLines (collapseFrom blank afterBlank ls) = solidLines ls := by
  induction ls generalizing afterBlank with
  | nil => rfl
  | cons l r ih =>
      simp only [solidLines] at ih ⊢
      by_cases hl : l.isBlank = true
      · cases afterBlank <;> simp [collapseFrom, hl, hblank, ih]
      · simp [collapseFrom, hl, ih]

/-- The blank lines that are left are all the same. -/
theorem eq_of_mem_collapseFrom {l : Text} (hl : l ∈ collapseFrom blank afterBlank ls)
    (hempty : l.isBlank = true) : l = blank := by
  induction ls generalizing afterBlank with
  | nil => exact absurd hl List.not_mem_nil
  | cons k r ih =>
      by_cases hk : k.isBlank = true
      · cases afterBlank with
        | true => exact ih true (by simpa [collapseFrom, hk] using hl)
        | false =>
            rcases (by simpa [collapseFrom, hk] using hl :
              l = blank ∨ l ∈ collapseFrom blank true r) with rfl | hr
            · rfl
            · exact ih true hr
      · rcases (by simpa [collapseFrom, hk] using hl :
          l = k ∨ l ∈ collapseFrom blank false r) with rfl | hr
        · exact absurd hempty hk
        · exact ih false hr

end

/-- Lines that start and end with code still do. -/
theorem trimBlankLines_collapse {ls : List Text} (h : trimBlankLines ls = ls) (blank : Text) :
    trimBlankLines (collapseBlankLines blank ls) = collapseBlankLines blank ls := by
  obtain ⟨hhead, hlast⟩ := trimBlankLines_eq_self_iff.mp h
  refine trimBlankLines_eq_self_iff.mpr ⟨fun l hl => ?_, fun l hl => ?_⟩
  · cases ls with
    | nil => cases hl
    | cons k r =>
        have hk := hhead k rfl
        rw [collapseBlankLines, collapseFrom, hk] at hl
        exact Option.some.inj hl ▸ hk
  · rcases List.eq_nil_or_concat' ls with rfl | ⟨r, k, rfl⟩
    · cases hl
    · have hk := hlast k (by simp)
      rw [collapseBlankLines, collapseFrom_concat _ _ _ hk, List.getLast?_concat] at hl
      exact Option.some.inj hl ▸ hk

/-! ### A block at a level -/

/-- The width of a level. -/
def levelWidth (level : Int) : Nat :=
  level.toNat * indentUnit

/-- An indentation is blank. -/
theorem isBlank_indentation (level : Int) : (indentation level).isBlank = true := by
  rw [indentation, Text.isBlank, List.all_eq_true]
  exact fun c hc => List.eq_of_mem_replicate hc ▸ rfl

/-- **A block at a level** is its body, moved to the level, without repeated blank lines. Lines are
settled before the empty ones are dropped, and those are the blank ones. -/
theorem reindent_eq (t : Text) (level : Int) :
    reindent t level = collapseBlankLines (indentation level)
      ((bodyLines t).map (indentLine (levelWidth level))) := by
  have hcomp : List.isEmpty ∘ (fun l : Text => (expandTabs l).trimEnd) = Text.isBlank :=
    funext isEmpty_settleLine
  have hcore : ((((Text.lines t.normalizeNewlines).map fun l => (expandTabs l).trimEnd).dropWhile
      List.isEmpty).reverse.dropWhile List.isEmpty).reverse = coreLines t := by
    rw [List.dropWhile_map, hcomp, ← List.map_reverse, List.dropWhile_map, hcomp,
      ← List.map_reverse]
    rfl
  have hsettled := isSettled_coreLines t
  simp only [reindent, hcore]
  rw [bodyLines, dedent, List.map_map]
  congr 1
  refine List.map_congr_left fun l hl => ?_
  by_cases hne : l = []
  · rw [hne, Function.comp_apply, List.drop_nil, List.drop_nil]
    rfl
  · rw [if_neg (by simpa using hne), Function.comp_apply,
      indentLine_of_ne_nil _ ((hsettled l hl).drop_ne_nil hne (margin_le hsettled hl hne))]
    rfl

/-- The solid lines of a text, settled. -/
def codeLines (t : Text) : List Text :=
  solidLines ((Text.lines t.normalizeNewlines).map settleLine)

/-- The solid lines of the core of a block are its lines of code. -/
theorem solidLines_coreLines (t : Text) : solidLines (coreLines t) = codeLines t := by
  rw [coreLines, codeLines, solidLines_map isBlank_settleLine, solidLines_trimBlankLines,
    solidLines_map isBlank_settleLine]

/-- They are those of the body, moved to the place of the block. -/
theorem codeLines_eq (t : Text) : codeLines t
    = (solidLines (bodyLines t)).map (List.replicate (margin (coreLines t)) ' ' ++ ·) := by
  rw [← solidLines_map_indentLine, map_indentLine_bodyLines, solidLines_coreLines]

/-- The solid lines of a written block are those of its body, moved to the level. -/
theorem solidLines_reindent (t : Text) (level : Int) : solidLines (reindent t level)
    = (solidLines (bodyLines t)).map (List.replicate (levelWidth level) ' ' ++ ·) := by
  rw [reindent_eq, collapseBlankLines, solidLines_collapseFrom (isBlank_indentation level),
    solidLines_map_indentLine]

/-- **Lines at a margin**: they start and end with code, their blank lines stand alone and are as
long as the margin, and the margin is the least indentation of the others. -/
structure IsBlockAt (margin : Nat) (ls : List Text) : Prop where
  isBlank_head : ∀ l ∈ ls.head?, l.isBlank = false
  isBlank_last : ∀ l ∈ ls.getLast?, l.isBlank = false
  blank_eq : ∀ l ∈ ls, l.isBlank = true → l = List.replicate margin ' '
  isChain : ls.IsChain fun k l => k.isBlank = false ∨ l.isBlank = false
  min?_eq : ((solidLines ls).map leadingSpaces).min? = some margin

/-- A block with some code in it is moved to the margin of the level. -/
theorem isBlockAt_reindent {t : Text} (h : codeLines t ≠ []) (level : Int) :
    IsBlockAt (levelWidth level) (reindent t level) := by
  have hbody := isBody_bodyLines t
  have hsolid : solidLines (bodyLines t) ≠ [] := by
    intro hnil
    rw [codeLines_eq, hnil] at h
    exact h rfl
  have hmoved : ∀ l ∈ (bodyLines t).map (indentLine (levelWidth level)), IsSettled l := by
    intro l hl
    obtain ⟨k, hk, rfl⟩ := List.mem_map.mp hl
    exact (hbody.isSettled k hk).indentLine _
  have hedges := trimBlankLines_eq_self_iff.mp (trimBlankLines_collapse
    ((trimBlankLines_map (isBlank_indentLine (levelWidth level)) _).trans
      (congrArg _ hbody.trim_eq)) (indentation level))
  have hblank := isBlank_indentation level
  rw [← reindent_eq] at hedges
  refine ⟨hedges.1, hedges.2, fun l hl hempty => ?_, ?_, ?_⟩
  · rw [reindent_eq] at hl
    exact eq_of_mem_collapseFrom hblank _ _ hl hempty
  · rw [reindent_eq]
    exact (isChain_collapseFrom _ _ _).1
  · have hne : solidLines ((bodyLines t).map (indentLine (levelWidth level))) ≠ [] := by
      simpa [solidLines_map_indentLine] using hsolid
    obtain ⟨l, hl⟩ := List.exists_mem_of_ne_nil _ hne
    rw [solidLines_reindent, ← solidLines_map_indentLine, min?_leadingSpaces hmoved hl,
      margin_map_indentLine hbody.isSettled _ hsolid, hbody.margin_eq, Nat.add_zero]

/-- **A block at a level, line by line.** A block without code has no lines. Any other one is at the
margin of the level, and its solid lines are those of the text, with their common least indentation
replaced by that of the level. -/
theorem reindent_exact (t : Text) (level : Nat) :
    if (Text.lines t.normalizeNewlines).all Text.isBlank then reindent t level = []
    else IsBlockAt (4 * level) (reindent t level) ∧
      ∃ (least : Nat) (bodies : List Text), ((codeLines t).map leadingSpaces).min? = some least ∧
        codeLines t = bodies.map (List.replicate least ' ' ++ ·) ∧
        solidLines (reindent t level) = bodies.map (List.replicate (4 * level) ' ' ++ ·) := by
  have hwidth : levelWidth level = 4 * level := Nat.mul_comm _ _
  split
  · rename_i hall
    have htrim : trimBlankLines (Text.lines t.normalizeNewlines) = [] := by
      rw [trimBlankLines, List.dropWhile_eq_nil_iff.mpr (List.all_eq_true.mp hall)]
      rfl
    rw [reindent_eq, bodyLines, coreLines, htrim]
    rfl
  · rename_i hsome
    have hne : codeLines t ≠ [] := by
      intro hnil
      rw [codeLines, solidLines_map isBlank_settleLine, List.map_eq_nil_iff] at hnil
      refine hsome (List.all_eq_true.mpr fun l hl => ?_)
      by_contra hl'
      exact List.ne_nil_of_mem (mem_solidLines.mpr ⟨hl, by simpa using hl'⟩) hnil
    obtain ⟨l, hl⟩ := List.exists_mem_of_ne_nil _ hne
    rw [← hwidth]
    refine ⟨isBlockAt_reindent hne level, margin (coreLines t), solidLines (bodyLines t), ?_,
      codeLines_eq t, solidLines_reindent t level⟩
    rw [← solidLines_coreLines] at hl ⊢
    exact min?_leadingSpaces (isSettled_coreLines t) hl

/-! ### Moving a block again -/

/-- **A block that has been moved keeps its body**, without repeated blank lines. Settling turns the
blank lines into empty ones and leaves the others. -/
theorem bodyLines_join_reindent (t : Text) (level : Int) :
    bodyLines (Text.join "\n" (reindent t level)) = collapseBlankLines [] (bodyLines t) := by
  have hbody := isBody_bodyLines t
  have hkept : ∀ l ∈ collapseBlankLines [] (bodyLines t), IsSettled l := by
    intro l hl
    rcases LineClass.mem_collapseFrom hl with rfl | hl
    · exact ⟨List.not_mem_nil, rfl⟩
    · exact hbody.isSettled l hl
  have hlead : settleLine (indentation level) = [] := by
    rw [← List.isEmpty_iff, isEmpty_settleLine]
    exact isBlank_indentation level
  have hsettle : ((bodyLines t).map (indentLine (levelWidth level))).map settleLine
      = (bodyLines t).map (indentLine (levelWidth level)) := by
    rw [List.map_map]
    exact List.map_congr_left fun l hl => ((hbody.isSettled l hl).indentLine _).settleLine_eq
  have htrim : trimBlankLines (reindent t level) = reindent t level := by
    rw [reindent_eq]
    exact trimBlankLines_collapse ((trimBlankLines_map (isBlank_indentLine _) _).trans
      (congrArg _ hbody.trim_eq)) _
  have hcore : coreLines (Text.join "\n" (reindent t level))
      = (collapseBlankLines [] (bodyLines t)).map (indentLine (levelWidth level)) := by
    rw [coreLines_join (LineClass.covers_reindent t level), htrim, reindent_eq, collapseBlankLines,
      ← collapseFrom_map _ _ isBlank_settleLine, hlead, hsettle, collapseBlankLines,
      ← collapseFrom_map _ _ (isBlank_indentLine _), indentLine_nil]
  have hmargin : margin (collapseBlankLines [] (bodyLines t)) = 0 := by
    rw [margin_eq_leastWidth hkept, collapseBlankLines, solidLines_collapseFrom rfl,
      ← margin_eq_leastWidth hbody.isSettled, hbody.margin_eq]
  rw [bodyLines, hcore, dedent_map_indentLine hkept, dedent, hmargin]
  exact List.map_id _

/-- **The place of a block does not depend on its way there.** A block that has been moved to one
level is moved to another one as if it had been there from the start, and so is a block that has
been normalised; normalising it again does nothing. -/
theorem reindent_pathIndependent (t : Text) (level level' : Int) :
    reindent (Text.join "\n" (reindent t level)) level' = reindent t level' ∧
      reindent (normalizeBlock t).1 level' = reindent t level' ∧
      normalizeBlock (normalizeBlock t).1 = ((normalizeBlock t).1, 0) := by
  have hbody := isBody_bodyLines t
  have hsame : bodyLines (normalizeBlock t).1 = bodyLines t := by
    rw [normalizeBlock_eq]
    exact hbody.bodyLines_join
  refine ⟨?_, ?_, ?_⟩
  · rw [reindent_eq, bodyLines_join_reindent, reindent_eq t level', collapseBlankLines,
      collapseBlankLines, ← collapseFrom_map _ _ (isBlank_indentLine _), indentLine_nil,
      collapseBlankLines, collapseFrom_collapseFrom rfl]
  · rw [reindent_eq, hsame, ← reindent_eq]
  · rw [normalizeBlock_eq (normalizeBlock t).1, hsame, normalizeBlock_eq t]
    rw [hbody.coreLines_join, hbody.margin_eq]

end Sharpen
