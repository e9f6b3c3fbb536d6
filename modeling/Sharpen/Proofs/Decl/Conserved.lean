import Mathlib.Data.List.Perm.Basic
import Sharpen.Proofs.Decl.Separator
import Sharpen.Proofs.Decl.Tidy
import Sharpen.Proofs.Text.Solid

/-!
# Nothing Is Lost in Cutting

A parameter list is cut into blocks, and each block into code and comments. Both cuttings move
characters between several places, and may end inside a comment or a literal as well as outside.
Neither loses or doubles anything: the blocks are the pieces between the separators, in order, each
with what the separator behind it claims, and the code and the comments of a block have between them
all of its characters that are not blank.

Where the list is cut is said by the separators, which are the commas outside of brackets, comments
and literals. A separator claims the comment that trails it, so the texts of the blocks are not the
stretches between the separators but these with what is claimed. Empty blocks are dropped, and with
them no character but blanks. The statement about characters counts them, one character at a time.

## Main definitions

* `TrailsComma` — the text that a separator claims.
* `CutInto` — a parameter list cut at its separators.
* `Cut` — a piece of a parameter list: the text in front of a separator, and the text it claims.
* `BlockParts.count` — how often a character occurs in the parts of a block.

## Main results

* `exists_cutInto` — every text is cut so, and its blocks are the pieces.
* `count_separateFrom` — taking out comments keeps every character that is not blank.
* `blockTexts_conserved` — the two results together.
* `claimTrailing_trails` — a separator divides the text behind it into the comment that trails it
  and the rest.
-/

namespace Sharpen

/-! ### Claimed text -/

/-- The text a separator claims, and the text it leaves: it claims nothing, or a comment behind
spaces and tabs, with the end of its line. A comment without an end takes all that is left. -/
inductive TrailsComma : (claimed rest : Text) → Prop
  | nothing (rest : Text) : TrailsComma [] rest
  | line {w c : Text} (hw : w.all isSpaceOrTab = true) (hc : '\n' ∉ c) (rest : Text) :
      TrailsComma (w ++ '/' :: '/' :: (c ++ ['\n'])) rest
  | lastLine {w c : Text} (hw : w.all isSpaceOrTab = true) (hc : '\n' ∉ c) :
      TrailsComma (w ++ '/' :: '/' :: c) []
  | block {w c gap : Text} (hw : w.all isSpaceOrTab = true) (hc : c.hasInfix "*/" = false)
      (hgap : gap.all isLineBlank = true) (rest : Text) :
      TrailsComma (w ++ '/' :: '*' :: (c ++ '*' :: '/' :: (gap ++ ['\n']))) rest
  | lastBlock {w c rest : Text} (hw : w.all isSpaceOrTab = true) (hc : c.hasInfix "*/" = false)
      (hrest : rest.all isLineBlank = true) :
      TrailsComma (w ++ '/' :: '*' :: (c ++ ['*', '/'])) rest
  | openBlock {w c : Text} (hw : w.all isSpaceOrTab = true) (hc : c.hasInfix "*/" = false) :
      TrailsComma (w ++ '/' :: '*' :: c) []

/-- A text that has another one in it, taken apart at the first occurrence. -/
theorem exists_first_occurrence {p t : Text} (hp : p ≠ []) (h : t.hasInfix p = true) :
    ∃ u v, t = u ++ (p ++ v) ∧ u.hasInfix p = false := by
  have hnil : Text.hasInfix [] p = false := by simp [Text.hasInfix, Text.find?, hp]
  induction t with
  | nil => exact absurd h (by simp [hnil])
  | cons x t ih =>
      rw [Text.hasInfix, Text.find?] at h
      split at h
      · rename_i hprefix
        obtain ⟨v, hv⟩ := List.isPrefixOf_iff_prefix.mp hprefix
        exact ⟨[], v, hv.symm, hnil⟩
      · rename_i hprefix
        rw [Option.isSome_map] at h
        obtain ⟨u, v, rfl, hu⟩ := ih h
        have hprefix' : ¬ List.isPrefixOf p (x :: u) = true := by
          rw [List.isPrefixOf_iff_prefix] at hprefix ⊢
          exact fun hopen => hprefix (hopen.trans (List.prefix_append (x :: u) _))
        refine ⟨x :: u, v, rfl, ?_⟩
        rw [Text.hasInfix, Text.find?, if_neg hprefix', Option.isSome_map]
        exact hu

section

variable {w c : Text}

/-- A separator claims a comment on the last line. -/
theorem claimTrailing_lastLine (hw : w.all isSpaceOrTab = true) (hc : '\n' ∉ c) :
    claimTrailing (w ++ '/' :: '/' :: c) = ⟨w ++ '/' :: '/' :: c, [], false⟩ := by
  have hend : ('/' :: '/' :: c).findIdx? (· == '\n') = none := by
    rw [List.findIdx?_eq_none_iff]
    intro x hx
    have hmem : x = '/' ∨ x = '/' ∨ x ∈ c := by simpa using hx
    rcases hmem with rfl | rfl | hmem
    · rfl
    · rfl
    · exact beq_false_of_ne fun h => hc (h ▸ hmem)
  rw [claimTrailing, takeWhile_append_cons hw (by decide), List.drop_left]
  simp only [show Text.startsWith ('/' :: '/' :: c) "//" = true from rfl, if_true, hend, Claim.take,
    List.take_length, List.drop_length]

/-- A separator claims a comment that is not closed. -/
theorem claimTrailing_openBlock (hw : w.all isSpaceOrTab = true)
    (hc : Text.hasInfix c "*/" = false) :
    claimTrailing (w ++ '/' :: '*' :: c) = ⟨w ++ '/' :: '*' :: c, [], false⟩ := by
  have hfind : Text.find? "*/" (('/' :: '*' :: c).drop 2) = none :=
    Option.not_isSome_iff_eq_none.mp (by simpa [Text.hasInfix] using hc)
  rw [claimTrailing, takeWhile_append_cons hw (by decide), List.drop_left]
  simp only [show Text.startsWith ('/' :: '*' :: c) "//" = false from rfl,
    show Text.startsWith ('/' :: '*' :: c) "/*" = true from rfl, if_true, cutBlockComment, hfind,
    Bool.false_eq_true, if_false, List.takeWhile_nil, List.drop_nil, Claim.take]
  rw [List.take_of_length_le (by simp), List.drop_of_length_le (by simp)]

/-- What a separator claims of a closed comment and of the text behind it. -/
theorem claimTrailing_closedBlock (hw : w.all isSpaceOrTab = true)
    (hc : Text.hasInfix c "*/" = false) (r : Text) :
    let t := w ++ '/' :: '*' :: (c ++ '*' :: '/' :: r)
    TrailsComma (claimTrailing t).claimed (claimTrailing t).rest ∧
      (claimTrailing t).claimed ++ (claimTrailing t).rest = t := by
  obtain ⟨gap, q, rfl, hgap, hq⟩ : ∃ gap q, r = gap ++ q ∧ gap.all isLineBlank = true ∧
      q.head?.any isLineBlank = false :=
    ⟨_, _, List.takeWhile_append_dropWhile.symm, List.all_takeWhile, by
      have hhead := List.head?_dropWhile_not isLineBlank r
      cases hd : (r.dropWhile isLineBlank).head? <;> simp_all⟩
  dsimp only
  rw [claimTrailing_gap hw hgap hc hq]
  split_ifs with hnil hnewline
  · subst hnil
    have hsplit : w ++ '/' :: '*' :: (c ++ '*' :: '/' :: (gap ++ []))
        = (w ++ '/' :: '*' :: (c ++ ['*', '/'])) ++ gap := by simp
    rw [Claim.take, hsplit, List.take_left' (by simp), List.drop_left' (by simp)]
    exact ⟨.lastBlock hw hc hgap, rfl⟩
  · obtain ⟨q, rfl⟩ := List.head?_eq_some_iff.mp hnewline
    have hsplit : w ++ '/' :: '*' :: (c ++ '*' :: '/' :: (gap ++ '\n' :: q))
        = (w ++ '/' :: '*' :: (c ++ '*' :: '/' :: (gap ++ ['\n']))) ++ q := by simp
    rw [Claim.take, hsplit, List.take_left' (by simp; omega), List.drop_left' (by simp; omega)]
    exact ⟨.block hw hc hgap q, rfl⟩
  · exact ⟨.nothing _, rfl⟩

end

/-- **A separator divides the text behind it** into the comment that trails it and the rest. -/
theorem claimTrailing_trails (t : Text) :
    TrailsComma (claimTrailing t).claimed (claimTrailing t).rest ∧
      (claimTrailing t).claimed ++ (claimTrailing t).rest = t := by
  by_cases hcomment : startsComment (t.dropWhile isSpaceOrTab) = true
  case neg =>
    rw [claimTrailing_code (by simpa using hcomment)]
    exact ⟨.nothing t, rfl⟩
  obtain ⟨w, r, rfl, hw, hstart⟩ : ∃ w r, t = w ++ r ∧ w.all isSpaceOrTab = true ∧
      startsComment r = true :=
    ⟨_, _, List.takeWhile_append_dropWhile.symm, List.all_takeWhile, hcomment⟩
  rcases Bool.or_eq_true_iff.mp hstart with hline | hblock
  · obtain ⟨r, rfl⟩ : ∃ r', '/' :: '/' :: r' = r := List.isPrefixOf_iff_prefix.mp hline
    by_cases hend : '\n' ∈ r
    · obtain ⟨c, q, rfl, hc⟩ := List.eq_append_cons_of_mem hend
      rw [claimTrailing_lineComment hw hc]
      exact ⟨.line hw hc q, by simp⟩
    · rw [claimTrailing_lastLine hw hend]
      exact ⟨.lastLine hw hend, List.append_nil _⟩
  · obtain ⟨r, rfl⟩ : ∃ r', '/' :: '*' :: r' = r := List.isPrefixOf_iff_prefix.mp hblock
    by_cases hclosed : Text.hasInfix r "*/" = true
    · obtain ⟨c, after, rfl, hc⟩ := exists_first_occurrence (by decide) hclosed
      exact claimTrailing_closedBlock hw hc after
    · rw [Bool.not_eq_true] at hclosed
      rw [claimTrailing_openBlock hw hclosed]
      exact ⟨.openBlock hw hclosed, List.append_nil _⟩

/-! ### Blocks -/

/-- A piece of a parameter list: the text in front of a separator, and the text it claims. -/
structure Cut where
  code : Text
  tail : Text

/-- A parameter list cut at its separators, into the pieces in front of them and the last one. Each
piece is the text of one parameter, and the comment that trails its separator goes with it. -/
inductive CutInto : Text → List Cut → Text → Prop
  | last {t : Text} (ht : (scanBlock .code {} t).isSome = true) : CutInto t [] t
  | comma {c w rest last : Text} {cuts : List Cut} (hc : IsUndivided c) (hw : TrailsComma w rest)
      (hrest : CutInto rest cuts last) : CutInto (c ++ ',' :: (w ++ rest)) (⟨c, w⟩ :: cuts) last

/-- The pieces, with a comma in each but the last, are the text. -/
theorem CutInto.eq_flatMap {t last : Text} {cuts : List Cut} (h : CutInto t cuts last) :
    t = (cuts.flatMap fun p => p.code ++ ',' :: p.tail) ++ last := by
  induction h with
  | last => rfl
  | comma _ _ _ ih => simp [← ih]

/-- The blocks of a text without separators. -/
theorem blockTexts_of_scanBlock {t : Text} (h : (scanBlock .code {} t).isSome = true) :
    blockTexts t = [t].filter fun u => !u.isBlank := by
  obtain ⟨⟨zone, d⟩, hscan⟩ := Option.isSome_iff_exists.mp h
  obtain ⟨s, -, -, hread⟩ := blocksFrom_append_scanBlock (v := []) hscan rfl (s := {}) rfl rfl
  rw [List.append_nil, blocksFrom] at hread
  rw [blockTexts, parameterBlocks, hread]
  simp only [BlockTail.blocks, BlockTail.prepend, List.append_nil, List.filter_cons,
    List.filter_nil]
  split_ifs <;> simp_all

/-- **Every text is cut at its separators**, and its blocks are the pieces that are not blank. The
induction is on the length of the text, for behind a separator less of it is left. -/
theorem exists_cutInto (t : Text) : ∃ cuts last, CutInto t cuts last ∧
    blockTexts t = ((cuts.map fun p => p.code ++ p.tail) ++ [last]).filter fun u => !u.isBlank := by
  induction hn : t.length using Nat.strong_induction_on generalizing t with
  | _ n ih =>
      subst hn
      cases hscan : scanBlock .code {} t with
      | some place =>
          have ht : (scanBlock .code {} t).isSome = true := by rw [hscan]; rfl
          exact ⟨[], t, .last ht, blockTexts_of_scanBlock ht⟩
      | none =>
          obtain ⟨c, r, rfl, hc⟩ := exists_separator_of_scanBlock hscan
          obtain ⟨htrails, happend⟩ := claimTrailing_trails r
          have hlt : (claimTrailing r).rest.length < (c ++ ',' :: r).length := by
            have hle := length_rest_claimTrailing_le r
            simp only [List.length_append, List.length_cons]
            omega
          obtain ⟨cuts, last, hcut, htexts⟩ := ih _ hlt _ rfl
          refine ⟨⟨c, (claimTrailing r).claimed⟩ :: cuts, last, ?_, ?_⟩
          · conv => arg 1; rw [← happend]
            exact .comma hc htrails hcut
          · rw [blockTexts_undivided_comma hc, htexts, ← List.filter_append]
            rfl

/-- The blocks with their indexes are the numbered block texts. -/
theorem map_text_index_numberedBlocks (t : Text) :
    (numberedBlocks t).map (fun b => (b.text, b.index)) = (blockTexts t).zipIdx := by
  rw [numberedBlocks, blockTexts, List.mapIdx_eq_zipIdx_map, List.map_map, List.zipIdx_map]
  rfl

/-! ### Comments -/

/-- Trimming takes nothing but blanks. -/
theorem Text.count_trim {x : Char} (hx : Sharpen.isBlank x = false) (t : Text) :
    t.trim.count x = t.count x := by
  have hcount : ∀ u : Text, u.solid.count x = u.count x := fun u =>
    List.count_filter (by simp [hx])
  rw [← hcount, Text.solid_trim, hcount]

/-- How often a character occurs in the parts of a block. -/
def BlockParts.count (x : Char) (p : BlockParts) : Nat :=
  p.code.count x + p.openComment.count x + ((p.before ++ p.after).flatMap (·.text)).count x

section

variable {x : Char} (c : Char) (p : BlockParts)

/-- A character of the code counts once. -/
theorem BlockParts.count_pushCode :
    (p.pushCode c).count x = p.count x + if c == x then 1 else 0 := by
  simp only [BlockParts.count, BlockParts.pushCode, List.count_cons]
  omega

/-- So does a character of a comment. -/
theorem BlockParts.count_pushComment :
    (p.pushComment c).count x = p.count x + if c == x then 1 else 0 := by
  simp only [BlockParts.count, BlockParts.pushComment, List.count_cons]
  omega

/-- Closing a comment keeps its characters that are not blank. -/
theorem BlockParts.count_comment (hx : isBlank x = false) (side : CommentSide) :
    (p.comment side).count x = p.count x := by
  cases side <;>
    simp [BlockParts.count, BlockParts.comment, Text.count_trim hx] <;> omega

/-- So does opening one behind parts in which none is open. -/
theorem BlockParts.count_open {p : BlockParts} (hp : p.openComment = []) (mark : Text) :
    { p with openComment := mark }.count x = mark.count x + p.count x := by
  simp only [BlockParts.count, hp, List.count_nil]
  omega

end

/-- Outside of comments no comment is open. -/
theorem openComment_separateFrom (zone : Zone) (hline : zone ≠ .lineComment)
    (hblock : zone ≠ .blockComment) (seen : Bool) (t : Text) :
    (separateFrom zone seen t).openComment = [] := by
  fun_induction separateFrom zone seen t with
  | case1 => rfl
  | case2 => exact absurd rfl hline
  | case3 => exact absurd rfl hline
  | case4 => exact absurd rfl hblock
  | case5 => exact absurd rfl hblock
  | case6 q seen c r ih => exact ih (by simp) (by simp)
  | case7 q seen c r zone ih =>
      refine ih ?_ ?_ <;> (unfold zone; split_ifs <;> simp)
  | case8 => rfl
  | case9 seen c r hline hblock side ih => cases h : side <;> rfl
  | case10 seen c r hline hblock zone ih =>
      refine ih ?_ ?_ <;> (unfold zone; split_ifs <;> simp)

/-- **Taking out comments keeps every character that is not blank.** -/
theorem count_separateFrom {x : Char} (hx : isBlank x = false) (zone : Zone) (seen : Bool)
    (t : Text) : (separateFrom zone seen t).count x = t.count x := by
  fun_induction separateFrom zone seen t with
  | case1 => rfl
  | case2 seen c r hc parts ih =>
      have hcode : parts.openComment = [] :=
        openComment_separateFrom .code (by simp) (by simp) seen r
      rw [BlockParts.count_open hcode, ih, ← List.count_append]
      rfl
  | case3 seen c r hc ih => rw [BlockParts.count_pushComment, ih, List.count_cons]
  | case4 seen r parts ih =>
      have hcode : parts.openComment = [] :=
        openComment_separateFrom .code (by simp) (by simp) seen r
      rw [BlockParts.count_open hcode, ih, ← List.count_append]
      rfl
  | case5 seen c r hclose ih => rw [BlockParts.count_pushComment, ih, List.count_cons]
  | case6 q seen c r ih => rw [BlockParts.count_pushCode, ih, List.count_cons]
  | case7 q seen c r zone ih => rw [BlockParts.count_pushCode, ih, List.count_cons]
  | case8 seen c r hline ih =>
      rw [BlockParts.count_comment _ hx, BlockParts.count_pushComment, ih, List.count_cons]
  | case9 seen c r hline hblock side ih =>
      rw [BlockParts.count_comment _ hx, BlockParts.count_pushComment, ih, List.count_cons]
  | case10 seen c r hline hblock zone ih =>
      rw [BlockParts.count_pushCode, ih, List.count_cons]

/-- The code of a block and its comments have its characters. -/
theorem solid_separateComments (t : Text) :
    t.solid.Perm ((separateComments t).1.solid ++
      ((separateComments t).2.1 ++ (separateComments t).2.2).flatMap fun c => c.text.solid) := by
  refine List.perm_iff_count.mpr fun x => ?_
  rw [← Text.solid_flatMap]
  by_cases hx : isBlank x = true
  · have hnone : ∀ u : Text, u.solid.count x = 0 := fun u =>
      List.count_eq_zero.mpr fun hmem => by simp [Text.solid, hx] at hmem
    rw [List.count_append, hnone, hnone, hnone]
  · rw [Bool.not_eq_true] at hx
    have hall : ∀ u : Text, u.solid.count x = u.count x := fun u =>
      List.count_filter (by simp [hx])
    have hopen := openComment_separateFrom .code (by simp) (by simp) false t
    rw [List.count_append, hall, hall, hall, ← count_separateFrom hx .code false t,
      BlockParts.count, hopen]
    rfl

/-- **Cutting a parameter list loses and doubles nothing.** Every text is cut at its separators
into pieces, of which each but the last takes the comment that trails its separator. The blocks are
the pieces that are not blank, with the indexes 0, 1, 2 and so on; and the code and the comments
that a block is taken apart into have its characters, blanks aside. -/
theorem blockTexts_conserved (t : Text) :
    (∃ cuts last, CutInto t cuts last ∧
      t = (cuts.flatMap fun p => p.code ++ ',' :: p.tail) ++ last ∧
      (numberedBlocks t).map (fun b => (b.text, b.index))
        = (((cuts.map fun p => p.code ++ p.tail) ++ [last]).filter fun u => !u.isBlank).zipIdx) ∧
    ∀ b ∈ numberedBlocks t,
      b.text.solid.Perm ((separateComments b.text).1.solid ++
        ((separateComments b.text).2.1 ++ (separateComments b.text).2.2).flatMap
          fun c => c.text.solid) := by
  obtain ⟨cuts, last, hcut, htexts⟩ := exists_cutInto t
  refine ⟨⟨cuts, last, hcut, hcut.eq_flatMap, ?_⟩, fun b _ => solid_separateComments b.text⟩
  rw [map_text_index_numberedBlocks, htexts]

end Sharpen
