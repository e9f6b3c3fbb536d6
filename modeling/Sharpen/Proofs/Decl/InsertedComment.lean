import Sharpen.Proofs.Code.CodeOnly
import Sharpen.Proofs.Decl.CommentSides

/-!
# A Comment Inside of a Parameter

A comment that is put into a parameter list is cut with the parameter it stands in, and then taken
out of its block without a trace. So what the list says is what it says without the comment, and the
texts on both sides of the comment go on with each other.

The place is given by the text in front of it in its parameter and the depth of brackets there.
Nothing is asked of the comment but that its content does not close it, and that nothing next to the
place makes another mark with it. The statement is made for what the list says apart from comments,
for the comment itself is of course found.

## Main definitions

* `Stays` — a text that stays in its block and leaves the cutting outside of everything.
* `ParameterPlace` — a place inside of a parameter.
* `codeParameter`, `map_bare_parseParameters` — what a list says depends on the code of its blocks.
* `blocksAt` — what the cutting finds outside of comments and literals at the given depth.
* `commentText` — the text of a comment with the given content.

## Main results

* `claimTrailing_append` — what is claimed behind a separator does not depend on what comes later.
* `ParameterPlace.exists_blockTexts` — what is put there changes the text of one block.
* `uncommented_append` — the code of a block with a text in front.
* `Stays.blocksAt_append` — a text that stays in its block comes before what is found behind it.
* `cutBlockFrom_append` — the pieces of a complete text come before those of the text behind it.
* `ParameterPlace.map_parseParameters_congr` — two texts in one place inside of a parameter: what
  the list says of its parameters is the same if it is the same for this one.
* `ParameterPlace.map_bare_comment` — a comment inside of a parameter is no different from nothing.
-/

namespace Sharpen

/-! ### Texts inside of a block -/

/-- A text stays in the block whose depth in brackets is `d` in front of it and `d'` behind it: it
has no separator, and ends outside of comments and literals. -/
structure Stays (t : Text) (d d' : BlockDepth) : Prop where
  scan : scanBlock .code d t = some (.code, d')
  complete : isCompleteFrom .code t = true

instance (t : Text) (d d' : BlockDepth) : Decidable (Stays t d d') :=
  decidable_of_iff (scanBlock .code d t = some (.code, d') ∧ isCompleteFrom .code t = true)
    ⟨fun h => ⟨h.1, h.2⟩, fun h => ⟨h.scan, h.complete⟩⟩

/-- What the cutting finds outside of comments and literals at the given depth. -/
def blocksAt (d : BlockDepth) (t : Text) : BlockTail :=
  blocksFrom { parens := d.parens, angles := d.angles } t

/-- **A text that stays in its block** comes before what is found behind it. -/
theorem Stays.blocksAt_append {t : Text} {d d' : BlockDepth} (h : Stays t d d') (u : Text) :
    (blocksAt d (t ++ u)).text = t ++ (blocksAt d' u).text ∧
      (blocksAt d (t ++ u)).more = (blocksAt d' u).more := by
  obtain ⟨s, hzone, hdepth, hread⟩ := passesFrom_of_scanBlock (v := u) h.scan
    (.inr h.complete) { parens := d.parens, angles := d.angles } rfl rfl
  obtain ⟨htext, hmore⟩ := texts_blocksFrom s { parens := d'.parens, angles := d'.angles } hzone
    hdepth u
  rw [blocksAt, blocksAt, hread, ← htext, ← hmore]
  exact ⟨rfl, rfl⟩

/-- Nothing at all leaves the cutting where it is. -/
theorem stays_nil (d : BlockDepth) : Stays [] d d :=
  ⟨rfl, rfl⟩

/-- A blank inside of a line, or the end of one. -/
def isGapBlank (c : Char) : Bool :=
  isLineBlank c || c == '\n'

/-- The blanks of a gap are spaces, tabs, carriage returns and newlines. -/
theorem isGapBlank_iff {x : Char} :
    isGapBlank x = true ↔ x = ' ' ∨ x = '\t' ∨ x = '\r' ∨ x = '\n' := by
  simp [isGapBlank, isLineBlank, isSpaceOrTab, or_assoc]

/-- They are blanks. -/
theorem isBlank_of_isGapBlank {x : Char} (hx : isGapBlank x = true) : isBlank x = true := by
  rcases isGapBlank_iff.mp hx with rfl | rfl | rfl | rfl <;> rfl

/-- Blanks stay in their block. -/
theorem stays_gap {g : Text} (hg : ∀ x ∈ g, isGapBlank x = true) (d : BlockDepth) :
    Stays g d d := by
  induction g with
  | nil => exact stays_nil d
  | cons x g ih =>
      obtain ⟨hx, htail⟩ := List.forall_mem_cons.mp hg
      obtain ⟨hscan, hcomplete⟩ := ih htail
      rcases isGapBlank_iff.mp hx with rfl | rfl | rfl | rfl <;> exact ⟨hscan, hcomplete⟩

/-- The text of a comment with the given content. -/
def commentText (c : Text) : Text :=
  '/' :: '*' :: (c ++ ['*', '/'])

section

variable {c : Text}

/-- The star of the opening mark is not the one of a closing mark. -/
theorem hasInfix_star_cons (hc : c.hasInfix "*/" = false) (hslash : c.head? ≠ some '/') :
    Text.hasInfix ('*' :: c) "*/" = false := by
  rw [Text.hasInfix_cons, hc, Bool.or_false]
  cases c with
  | nil => rfl
  | cons x c => simpa [List.isPrefixOf] using Ne.symm hslash

/-- A comment closes at its first closing mark. -/
theorem scan_commentRest (hc : c.hasInfix "*/" = false) (d : BlockDepth) :
    scanBlock .blockComment d (c ++ ['*', '/']) = some (.code, d) ∧
      isCompleteFrom .blockComment (c ++ ['*', '/']) = true ∧
      (cutBlockFrom .blockComment (c ++ ['*', '/'])).pieces = [] := by
  induction c with
  | nil => exact ⟨rfl, rfl, rfl⟩
  | cons x c ih =>
      obtain ⟨hmark, hc⟩ := hasInfix_cons_eq_false hc
      have hclose : ∀ r, x = '*' → c ++ ['*', '/'] = '/' :: r → False := by
        rintro r rfl hr
        cases c with
        | nil => exact absurd (List.cons.inj hr).1 (by decide)
        | cons y c => exact hmark ⟨rfl, by simp [(List.cons.inj hr).1]⟩
      obtain ⟨hscan, hcomplete, hpieces⟩ := ih hc
      refine ⟨?_, ?_, ?_⟩
      · rw [List.cons_append, scanBlock]
        · exact hscan
        · exact hclose
      · rw [List.cons_append, isCompleteFrom]
        · exact hcomplete
        · exact hclose
      · rw [List.cons_append, cutBlockFrom]
        · exact hpieces
        · exact hclose

/-- A comment stays in its block. Its content must not start with a slash, which would close it
together with the star of the opening mark. -/
theorem stays_comment (hc : c.hasInfix "*/" = false) (hslash : c.head? ≠ some '/')
    (d : BlockDepth) : Stays (commentText c) d d := by
  obtain ⟨hscan, hcomplete, -⟩ := scan_commentRest (hasInfix_star_cons hc hslash) d
  constructor
  · change scanBlock .code d ('/' :: ('*' :: c ++ ['*', '/'])) = _
    rw [scanBlock, if_neg (by decide), if_neg (by simp), if_pos (by simp)]
    exact hscan
  · change isCompleteFrom .code ('/' :: ('*' :: c ++ ['*', '/'])) = _
    rw [isCompleteFrom, if_neg (by simp), if_pos (by simp)]
    exact hcomplete

end

/-! ### Places inside of a parameter -/

/-- A claim of the beginning of a text is the claim of that beginning. -/
theorem Claim.take_append {t : Text} {n : Nat} (hn : n ≤ t.length) (endsLine : Bool) (v : Text) :
    Claim.take (t ++ v) n endsLine
      = { Claim.take t n endsLine with rest := (Claim.take t n endsLine).rest ++ v } := by
  simp only [Claim.take, List.take_append_of_le_length hn, List.drop_append_of_le_length hn]

section

variable {w c : Text} (hw : w.all isSpaceOrTab = true)

include hw

/-- A comment behind a separator is claimed with the rest of its line, or not at all. -/
theorem claimTrailing_gap_cons {gap : Text} (hgap : gap.all isLineBlank = true)
    (hc : c.hasInfix "*/" = false) {x : Char} (hx : isLineBlank x = false) (q : Text) :
    let t := w ++ '/' :: '*' :: (c ++ '*' :: '/' :: (gap ++ x :: q))
    claimTrailing t
      = Claim.take t (if x = '\n' then w.length + (c.length + 4) + gap.length + 1 else 0)
          (x == '\n') := by
  have hclaim := claimTrailing_gap (q := x :: q) hw hgap hc hx
  dsimp only at hclaim ⊢
  rw [hclaim, if_neg (by simp)]
  by_cases hnewline : x = '\n'
  · simp [hnewline]
  · simp [hnewline, beq_false_of_ne hnewline]

/-- Where something is left behind a comment, it does not matter what comes later. Otherwise only
the blanks behind the comment would be left. -/
theorem claimTrailing_block_append (hc : c.hasInfix "*/" = false) {r : Text}
    (hrest : (claimTrailing (w ++ '/' :: '*' :: (c ++ '*' :: '/' :: r))).rest.isBlank = false)
    (v : Text) :
    let t := w ++ '/' :: '*' :: (c ++ '*' :: '/' :: r)
    claimTrailing (t ++ v) = { claimTrailing t with rest := (claimTrailing t).rest ++ v } := by
  obtain ⟨gap, q, rfl, hgap, hq⟩ : ∃ gap q, r = gap ++ q ∧ gap.all isLineBlank = true ∧
      q.head?.any isLineBlank = false :=
    ⟨_, _, List.takeWhile_append_dropWhile.symm, List.all_takeWhile, by
      have hhead := List.head?_dropWhile_not isLineBlank r
      cases hd : (r.dropWhile isLineBlank).head? <;> simp_all⟩
  cases q with
  | nil =>
      have hsplit : w ++ '/' :: '*' :: (c ++ '*' :: '/' :: gap)
          = (w ++ '/' :: '*' :: (c ++ ['*', '/'])) ++ gap := by simp
      have hclaim := claimTrailing_gap (q := []) hw hgap hc rfl
      dsimp only at hclaim
      rw [if_pos rfl] at hclaim
      rw [hclaim, Claim.take, List.append_nil, hsplit, List.drop_left' (by simp)] at hrest
      have hblank : gap.isBlank = true := by
        refine List.all_eq_true.mpr fun x hx => isBlank_of_isGapBlank ?_
        rw [isGapBlank, List.all_eq_true.mp hgap x hx, Bool.true_or]
      rw [hblank] at hrest
      cases hrest
  | cons x q =>
      have hsplit : w ++ '/' :: '*' :: (c ++ '*' :: '/' :: (gap ++ x :: q)) ++ v
          = w ++ '/' :: '*' :: (c ++ '*' :: '/' :: (gap ++ x :: (q ++ v))) := by simp
      have hclaim := claimTrailing_gap_cons hw hgap hc hq q
      have hclaim' := claimTrailing_gap_cons hw hgap hc hq (q ++ v)
      rw [← hsplit] at hclaim'
      dsimp only at hclaim hclaim' ⊢
      rw [hclaim, hclaim', Claim.take_append]
      split
      · simp
        omega
      · exact Nat.zero_le _

end

/-- A text starts with a comment if its first character opens one. -/
theorem startsComment_cons (c : Char) (r : Text) : startsComment (c :: r) = opensComment c r := by
  cases r with
  | nil => simp [startsComment, opensComment, Text.startsWith, List.isPrefixOf]
  | cons d r =>
      simp [startsComment, opensComment, Text.startsWith, List.isPrefixOf, BEq.comm (a := '/'),
        BEq.comm (a := '*'), Bool.and_or_distrib_left]

/-- **What is claimed behind a separator** is settled as soon as something is left. -/
theorem claimTrailing_append {t : Text} (hrest : (claimTrailing t).rest.isBlank = false)
    (hslash : t.dropWhile isSpaceOrTab ≠ ['/']) (v : Text) :
    claimTrailing (t ++ v) = { claimTrailing t with rest := (claimTrailing t).rest ++ v } := by
  obtain ⟨w, r, hsplit, hw, hdrop⟩ : ∃ w r, t = w ++ r ∧ w.all isSpaceOrTab = true ∧
      t.dropWhile isSpaceOrTab = r :=
    ⟨_, _, List.takeWhile_append_dropWhile.symm, List.all_takeWhile, rfl⟩
  rw [hdrop] at hslash
  by_cases hcomment : startsComment r = true
  case neg =>
    rw [Bool.not_eq_true] at hcomment
    have hcode : claimTrailing t = ⟨[], t, false⟩ := claimTrailing_code (hdrop ▸ hcomment)
    cases r with
    | nil =>
        rw [hcode, hsplit, List.append_nil] at hrest
        have hblank : Text.isBlank w = true := by
          refine List.all_eq_true.mpr fun x hx => isBlank_of_isGapBlank ?_
          rw [isGapBlank, isLineBlank, List.all_eq_true.mp hw x hx, Bool.true_or, Bool.true_or]
        rw [hblank] at hrest
        cases hrest
    | cons x r =>
        have hx : isSpaceOrTab x = false := by
          simpa [hdrop] using List.head?_dropWhile_not isSpaceOrTab t
        have hdrop' : (t ++ v).dropWhile isSpaceOrTab = x :: r ++ v := by
          rw [hsplit, List.append_assoc, List.dropWhile_append_of_pos (List.all_eq_true.mp hw),
            List.cons_append, List.dropWhile_cons_of_neg (by simp [hx])]
        have hlater : startsComment (x :: r ++ v) = false := by
          rw [startsComment_cons] at hcomment
          rw [List.cons_append, startsComment_cons]
          exact opensComment_append_of_ne hcomment (by rintro ⟨rfl, rfl⟩; exact hslash rfl) v
        rw [hcode, claimTrailing_code (hdrop' ▸ hlater)]
  subst hsplit
  rcases Bool.or_eq_true_iff.mp hcomment with hline | hblock
  · obtain ⟨r, rfl⟩ : ∃ r', '/' :: '/' :: r' = r := List.isPrefixOf_iff_prefix.mp hline
    by_cases hend : '\n' ∈ r
    · obtain ⟨c, q, rfl, hc⟩ := List.eq_append_cons_of_mem hend
      have hsplit : w ++ '/' :: '/' :: (c ++ '\n' :: q) ++ v
          = w ++ '/' :: '/' :: (c ++ '\n' :: (q ++ v)) := by simp
      rw [hsplit, claimTrailing_lineComment hw hc, claimTrailing_lineComment hw hc]
    · rw [claimTrailing_lastLine hw hend] at hrest
      cases hrest
  · obtain ⟨r, rfl⟩ : ∃ r', '/' :: '*' :: r' = r := List.isPrefixOf_iff_prefix.mp hblock
    by_cases hclosed : Text.hasInfix r "*/" = true
    · obtain ⟨c, after, rfl, hc⟩ := exists_first_occurrence (by decide) hclosed
      exact claimTrailing_block_append hw hc hrest v
    · rw [Bool.not_eq_true] at hclosed
      rw [claimTrailing_openBlock hw hclosed] at hrest
      cases hrest

/-- A place inside of a parameter: behind the text `u`, of which `p` belongs to the parameter, with
the depth `d` in its brackets. The text `p` is not blank, so the place is not directly behind a
separator. -/
inductive ParameterPlace : (u p : Text) → (d : BlockDepth) → Prop
  | first {p : Text} {d : BlockDepth} (hp : Stays p {} d) (hblank : p.isBlank = false) :
      ParameterPlace p p d
  | next {c r p : Text} {d : BlockDepth} (hc : IsUndivided c)
      (hr : ParameterPlace (claimTrailing r).rest p d) : ParameterPlace (c ++ ',' :: r) p d

namespace ParameterPlace

variable {u p : Text} {d : BlockDepth}

/-- The text in front of the place stays in its block. -/
theorem stays (h : ParameterPlace u p d) : Stays p {} d := by
  induction h with
  | first hp _ => exact hp
  | next _ _ ih => exact ih

/-- A parameter in which there is such a place is not blank. -/
theorem isBlank_parameter (h : ParameterPlace u p d) : p.isBlank = false := by
  induction h with
  | first _ hblank => exact hblank
  | next _ _ ih => exact ih

/-- Nor is the text around it. -/
theorem isBlank_eq_false (h : ParameterPlace u p d) : u.isBlank = false := by
  cases h with
  | first _ hblank => exact hblank
  | next hc hr =>
      rw [Text.isBlank, List.all_append, Bool.and_eq_false_iff]
      exact .inr rfl

/-- In front of a place there is more than a slash. A slash may be half of a mark. -/
theorem dropWhile_ne (h : ParameterPlace u p d) : u.dropWhile isSpaceOrTab ≠ ['/'] := by
  intro hdrop
  have hsplit : u = u.takeWhile isSpaceOrTab ++ ['/'] := by
    rw [← hdrop, List.takeWhile_append_dropWhile]
  have hblanks : ∀ x ∈ u.takeWhile isSpaceOrTab, isSpaceOrTab x = true := fun x hx =>
    List.mem_takeWhile_imp hx
  cases h with
  | first hp _ =>
      have hslash : ∀ w : Text, (∀ x ∈ w, isSpaceOrTab x = true) →
          isCompleteFrom .code (w ++ ['/']) = false := by
        intro w
        induction w with
        | nil => exact fun _ => rfl
        | cons x w ih =>
            intro hw
            obtain ⟨hx, htail⟩ := List.forall_mem_cons.mp hw
            have hcases : x = ' ' ∨ x = '\t' := by simpa [isSpaceOrTab] using hx
            rcases hcases with rfl | rfl <;> simpa [isCompleteFrom, isQuote] using ih htail
      have hcomplete := hp.complete
      rw [hsplit, hslash _ hblanks] at hcomplete
      cases hcomplete
  | @next c r _ _ _ _ =>
      have hcomma : ',' ∈ (c ++ ',' :: r).takeWhile isSpaceOrTab ++ ['/'] := by
        rw [← hsplit]
        simp
      rcases List.mem_append.mp hcomma with hmem | hmem
      · exact absurd (hblanks _ hmem) (by decide)
      · exact absurd (List.mem_singleton.mp hmem) (by decide)

/-- The text behind a place is the only one that the block of the parameter depends on. Where
nothing is claimed, a slash would be all that is left. -/
theorem exists_front (h : ParameterPlace u p d) :
    ∃ front, ∀ v, blockTexts (u ++ v) = front ++ blockTexts (p ++ v) := by
  induction h with
  | first _ _ => exact ⟨[], fun _ => rfl⟩
  | @next c r p d hc hr ih =>
      obtain ⟨front, hfront⟩ := ih
      refine ⟨([c ++ (claimTrailing r).claimed].filter fun u => !u.isBlank) ++ front, fun v => ?_⟩
      have hslash : r.dropWhile isSpaceOrTab ≠ ['/'] := by
        intro hdrop
        have hclaim : claimTrailing r = ⟨[], r, false⟩ := claimTrailing_code (by rw [hdrop]; rfl)
        rw [hclaim] at hr
        exact hr.dropWhile_ne hdrop
      rw [List.append_assoc, List.cons_append, blockTexts_undivided_comma hc,
        claimTrailing_append hr.isBlank_eq_false hslash, hfront, List.append_assoc]

/-- **What is put into a parameter** changes the text of its block and nothing else. -/
theorem exists_blockTexts (h : ParameterPlace u p d) (v : Text) :
    ∃ front t more, ∀ q, Stays q d d →
      blockTexts (u ++ (q ++ v)) = front ++ (p ++ (q ++ t)) :: more := by
  obtain ⟨front, hfront⟩ := h.exists_front
  refine ⟨front, (blocksAt d v).text, (blocksAt d v).more.map (·.text), fun q hq => ?_⟩
  obtain ⟨htext, hmore⟩ := h.stays.blocksAt_append (q ++ v)
  obtain ⟨htext', hmore'⟩ := hq.blocksAt_append v
  rw [htext'] at htext
  rw [hmore'] at hmore
  have hblank : (p ++ (q ++ (blocksAt d v).text)).isBlank = false := by
    rw [Text.isBlank, List.all_append, Bool.and_eq_false_iff]
    exact .inl h.isBlank_parameter
  have hblocks : blockTexts (p ++ (q ++ v)) = (blocksAt {} (p ++ (q ++ v))).blocks.map (·.text) :=
    rfl
  rw [hfront, hblocks, BlockTail.blocks, htext, hmore, hblank]
  rfl

end ParameterPlace

/-! ### The code of a block -/

/-- Puts pieces behind those of a text. -/
def BlockCut.append (b : BlockCut) (ps : List BlockPiece) : BlockCut :=
  { b with pieces := b.pieces ++ ps }

section

variable {c : Char} {r : Text}

/-- A character that opens no comment is code. -/
theorem cutBlockFrom_code_cons (h : opensComment c r = false) :
    cutBlockFrom .code (c :: r)
      = (cutBlockFrom (if isQuote c then .literal c else .code) r).pushCode c := by
  rw [opensComment, Bool.and_or_distrib_left, Bool.or_eq_false_iff] at h
  rw [cutBlockFrom, if_neg (by simp [h.1]), if_neg (by simp [h.2])]

/-- Two slashes open a comment up to the end of its line. -/
theorem cutBlockFrom_slashes (h : r.head? = some '/') :
    cutBlockFrom .code ('/' :: r) = ((cutBlockFrom .lineComment r).pushComment '/').comment := by
  rw [cutBlockFrom, if_pos (by simp [h])]

/-- A slash and a star open a comment up to its closing mark. -/
theorem cutBlockFrom_slashStar (h : r.head? = some '*') :
    cutBlockFrom .code ('/' :: r) = ((cutBlockFrom .blockComment r).pushComment '/').comment := by
  rw [cutBlockFrom, if_neg (by simp [h]), if_pos (by simp [h])]

/-- A character before the mark that closes a comment is part of the comment. -/
theorem cutBlockFrom_blockComment_cons (h : ¬ (c = '*' ∧ r.head? = some '/')) :
    cutBlockFrom .blockComment (c :: r) = (cutBlockFrom .blockComment r).pushComment c := by
  rw [cutBlockFrom]
  rintro r' rfl rfl
  exact h ⟨rfl, rfl⟩

end

/-- **The pieces of a complete text** come before those of the text behind it. A comment ends behind
its closing mark, so the text goes on behind a star in it. -/
theorem cutBlockFrom_append {zone : Zone} {t : Text} (h : isCompleteFrom zone t = true) (u : Text) :
    cutBlockFrom zone (t ++ u) = (cutBlockFrom zone t).append (blockPieces u) := by
  fun_induction isCompleteFrom zone t with
  | case1 =>
      have hopen := openComment_cutBlockFrom .code (by simp) (by simp) u
      rw [List.nil_append, cutBlockFrom, BlockCut.append, blockPieces, List.nil_append, ← hopen]
  | case2 c r ih =>
      rw [List.cons_append, cutBlockFrom, cutBlockFrom]
      by_cases hc : c = '\n'
      · simp only [hc, beq_self_eq_true, if_true] at h ih ⊢
        rw [ih h]
        rfl
      · simp only [beq_iff_eq, hc, if_false] at h ih ⊢
        rw [ih h]
        rfl
  | case3 r ih =>
      rw [List.cons_append, List.cons_append, cutBlockFrom, cutBlockFrom, ih h]
      rfl
  | case4 c r hclose ih =>
      have hopen : ∀ v, ¬ (c = '*' ∧ (r ++ v).head? = some '/') :=
        fun v => not_closesComment_append hclose (.inr h)
      rw [List.cons_append, cutBlockFrom_blockComment_cons (hopen u), ih h,
        cutBlockFrom_blockComment_cons (List.append_nil r ▸ hopen [])]
      rfl
  | case5 q c r ih =>
      rw [Bool.and_eq_true] at h
      rw [List.cons_append, cutBlockFrom, cutBlockFrom, ih h.2]
      rfl
  | case6 q c r ih =>
      rw [Bool.and_eq_true] at h
      rw [List.cons_append, cutBlockFrom, cutBlockFrom, ih h.2]
      rfl
  | case7 c r hline ih =>
      obtain ⟨rfl, hr⟩ : c = '/' ∧ r.head? = some '/' := by simpa using hline
      have hr' : (r ++ u).head? = some '/' := by rw [List.head?_append, hr, Option.some_or]
      rw [List.cons_append, cutBlockFrom_slashes hr', ih h, cutBlockFrom_slashes hr]
      rfl
  | case8 c r hline hblock ih =>
      obtain ⟨rfl, hr⟩ : c = '/' ∧ r.head? = some '*' := by simpa using hblock
      have hr' : (r ++ u).head? = some '*' := by rw [List.head?_append, hr, Option.some_or]
      rw [List.cons_append, cutBlockFrom_slashStar hr', ih h, cutBlockFrom_slashStar hr]
      rfl
  | case9 c r hline hblock ih =>
      rw [Bool.and_eq_true] at h
      have hopens : ∀ v, opensComment c (r ++ v) = false :=
        fun v => opensComment_append_of_endsBlock hline hblock (.inr h.1)
      rw [List.cons_append, cutBlockFrom_code_cons (hopens u), ih h.2,
        cutBlockFrom_code_cons (List.append_nil r ▸ hopens [])]
      rfl
  | case10 => cases h

/-- A block without its comments. -/
def uncommented (t : Text) : Text :=
  (blockPieces t).flatMap BlockPiece.codeText

/-- What is left when the comments are taken out of a block is its uncommented text. -/
theorem separateComments_fst (t : Text) : (separateComments t).1 = uncommented t := by
  have hparts : separateFrom .code false t = (cutBlockFrom .code t).parts false :=
    separateFrom_eq_parts .code false t (by simp)
  rw [separateComments, hparts]
  rfl

/-- **The code of a complete text** comes before that of the text behind it. -/
theorem uncommented_append {t : Text} (h : isCompleteFrom .code t = true) (u : Text) :
    uncommented (t ++ u) = uncommented t ++ uncommented u := by
  rw [uncommented, blockPieces, cutBlockFrom_append h, BlockCut.append, List.flatMap_append]
  rfl

/-- A gap has no comments to take out. -/
theorem uncommented_gap {g : Text} (hg : ∀ x ∈ g, isGapBlank x = true) : uncommented g = g := by
  induction g with
  | nil => rfl
  | cons x g ih =>
      obtain ⟨hx, htail⟩ := List.forall_mem_cons.mp hg
      have hone : uncommented [x] = [x] ∧ isCompleteFrom .code [x] = true := by
        rcases isGapBlank_iff.mp hx with rfl | rfl | rfl | rfl <;> exact ⟨rfl, rfl⟩
      rw [← List.singleton_append, uncommented_append hone.2, hone.1, ih htail]

/-- A comment has no code. -/
theorem uncommented_commentText {c : Text} (hc : c.hasInfix "*/" = false)
    (hslash : c.head? ≠ some '/') : uncommented (commentText c) = [] := by
  obtain ⟨-, -, hpieces⟩ := scan_commentRest (hasInfix_star_cons hc hslash) {}
  change (cutBlockFrom .code ('/' :: ('*' :: c ++ ['*', '/']))).pieces.flatMap _ = []
  rw [cutBlockFrom, if_neg (by simp), if_pos (by simp)]
  change (cutBlockFrom .blockComment ('*' :: c ++ ['*', '/'])).pieces.flatMap _ = []
  rw [hpieces]
  rfl

/-! ### What a list says -/

/-- The parameter that the code of a block stands for. -/
def codeParameter (code : Text) : Parameter :=
  let (declaration, default?) := splitDefault code
  let d := splitTypeAndName declaration
  { baseType := baseType d.type d.isArray
    name := d.name
    isConst := (typeTokens d.type).contains "const"
    isPointer := d.type.contains '*'
    isReference := d.type.contains '&' && !Text.hasInfix d.type "&&"
    default? := default?
    key := typeKey d.type }

/-- What a parameter says, apart from its comments and its layout. -/
def Parameter.bare (p : Parameter) : Parameter :=
  { p with comments := [], onNewLine := false, indent := 0, spelling := [] }

/-- Without its comments, a parameter is read from the uncommented text of its block. -/
theorem ParameterBlock.bare_parameter (b : ParameterBlock) :
    b.parameter.bare = codeParameter (uncommented b.text) := by
  simp only [ParameterBlock.parameter, codeParameter, Parameter.bare, separateComments_fst]

/-- Whether a list is the one that stands for no parameters does not depend on the layout. -/
theorem isVoidList_map_bare (ps : List Parameter) :
    isVoidList (ps.map Parameter.bare) = isVoidList ps := by
  cases ps with
  | nil => rfl
  | cons p r => cases r <;> rfl

/-- **What a list says** depends on the code of its blocks. -/
theorem map_bare_parseParameters (t : Text) :
    (parseParameters t).map Parameter.bare =
      let ps := (blockTexts t).map fun u => codeParameter (uncommented u)
      if isVoidList ps then [] else ps := by
  have hmap : (blockTexts t).map (fun u => codeParameter (uncommented u))
      = ((parameterBlocks t).map ParameterBlock.parameter).map Parameter.bare := by
    simp only [blockTexts, List.map_map]
    exact List.map_congr_left fun b _ => b.bare_parameter.symm
  dsimp only
  rw [hmap, isVoidList_map_bare, parseParameters]
  split <;> rfl

/-- **Two texts in one place** inside of a parameter: what the list says of its parameters is the
same if it is the same for this one. The two lists have the same parameters but for one. -/
theorem ParameterPlace.map_parseParameters_congr {f : Parameter → Parameter}
    (hf : ∀ ps, isVoidList (ps.map f) = isVoidList ps) {u p q q' : Text} {d : BlockDepth}
    (h : ParameterPlace u p d) (hq : Stays q d d) (hq' : Stays q' d d)
    (hcode : ∀ t, f (codeParameter (uncommented p ++ (uncommented q ++ t)))
      = f (codeParameter (uncommented p ++ (uncommented q' ++ t)))) (v : Text) :
    ((parseParameters (u ++ (q ++ v))).map Parameter.bare).map f
      = ((parseParameters (u ++ (q' ++ v))).map Parameter.bare).map f := by
  obtain ⟨front, t, more, hblocks⟩ := h.exists_blockTexts v
  have hsplit : ∀ {q : Text}, Stays q d d →
      uncommented (p ++ (q ++ t)) = uncommented p ++ (uncommented q ++ uncommented t) :=
    fun hq => by rw [uncommented_append h.stays.complete, uncommented_append hq.complete]
  generalize hps : (blockTexts (u ++ (q ++ v))).map (fun u => codeParameter (uncommented u)) = ps
  generalize hps' : (blockTexts (u ++ (q' ++ v))).map (fun u => codeParameter (uncommented u)) = ps'
  have hlist : ps.map f = ps'.map f := by
    rw [← hps, ← hps', hblocks q hq, hblocks q' hq']
    simp only [List.map_append, List.map_cons, hsplit hq, hsplit hq', hcode]
  rw [map_bare_parseParameters, map_bare_parseParameters, hps, hps']
  dsimp only
  rw [← hf ps, ← hf ps', hlist]
  split
  · rfl
  · exact hlist

/-- **A comment inside of a parameter** is no different from nothing. -/
theorem ParameterPlace.map_bare_comment {u p c : Text} {d : BlockDepth} (h : ParameterPlace u p d)
    (hc : c.hasInfix "*/" = false) (hslash : c.head? ≠ some '/') (v : Text) :
    (parseParameters (u ++ (commentText c ++ v))).map Parameter.bare
      = (parseParameters (u ++ v)).map Parameter.bare := by
  have hsame := h.map_parseParameters_congr (f := id) (by simp) (stays_comment hc hslash d)
    (stays_nil d) (fun t => by rw [uncommented_commentText hc hslash]; rfl) v
  simpa using hsame

end Sharpen
