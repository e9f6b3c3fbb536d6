import Mathlib.Tactic.SplitIfs
import Sharpen.Decl.ParameterBlock

/-!
# Closed Texts Stay in One Block

The cutting of a parameter list and the search for comments go through the same text with the same
notion of a literal. A text is **closed** when neither finds anything to act on in it: it has no
comment and no separator comma, its literals end on their line, and it closes every bracket that it
opens, as the cutting counts them.

The cutting is followed with the zone and the two depths that it keeps. A closed text leads from the
start back to the start, and does not touch the blocks on its way. So a list that is written from
closed texts with commas between them is cut into these texts, whatever they have in their brackets
and literals.

## Main definitions

* `BlockDepth` — how deep a place of a parameter list is inside of brackets.
* `BlockDepth.after` — the depth behind a character of code.
* `opensComment` — whether a character of code opens a comment together with the text behind it.
* `isClosedFrom` — whether a text, reached in the given zone and at the given depth, has neither a
  comment nor a separator, ends its literals on their line and leaves nothing open.
* `isClosed` — whether a text on its own is closed.

## Main results

* `separateComments_eq` — a closed text has no comments to separate.
* `map_text_parameterBlocks` — closed texts, joined by commas, are cut into these texts again.
* `blocksFrom_append` — a closed text stays in its block, and the cutting stands outside of
  everything behind it.
-/

namespace Sharpen

/-! ### Closed texts -/

/-- How deep a place of a parameter list is inside of brackets. -/
structure BlockDepth where
  parens : Nat := 0
  angles : Nat := 0
deriving DecidableEq, Repr

/-- The depth behind a character of code. A bracket that closes nothing changes nothing. -/
def BlockDepth.after (d : BlockDepth) (c : Char) : BlockDepth :=
  if c == '(' then { d with parens := d.parens + 1 }
  else if c == ')' then { d with parens := d.parens - 1 }
  else if c == '<' then { d with angles := d.angles + 1 }
  else if c == '>' then { d with angles := d.angles - 1 }
  else d

/-- Whether a character of code opens a comment together with the text behind it. -/
def opensComment (c : Char) (r : Text) : Bool :=
  c == '/' && (r.head? == some '/' || r.head? == some '*')

/-- Whether a character of code separates two blocks. -/
def isBlockSeparator (d : BlockDepth) (c : Char) : Bool :=
  c == ',' && d == {}

/-- Whether a text, reached in the given zone and at the given depth, has neither a comment nor a
separator, ends its literals on their line and leaves nothing open. -/
def isClosedFrom : Zone → BlockDepth → Text → Bool
  | .code, d, [] => d == {}
  | .code, d, c :: r =>
    if isQuote c then isClosedFrom (.literal c) d r
    else !opensComment c r && !isBlockSeparator d c && isClosedFrom .code (d.after c) r
  | .literal q, d, c :: r =>
    let zone : Zone := if c == '\\' then .escaped q else if c == q then .code else .literal q
    c != '\n' && isClosedFrom zone d r
  | .escaped q, d, c :: r => c != '\n' && isClosedFrom (.literal q) d r
  | _, _, _ => false

/-- Whether a text on its own is closed. -/
def isClosed (t : Text) : Bool :=
  isClosedFrom .code {} t

/-- A character opens no comment in a longer text, unless the text behind it completes a mark. -/
theorem opensComment_append {c : Char} {r v : Text} (h : opensComment c r = false)
    (hv : opensComment '/' v = false) : opensComment c (r ++ v) = false := by
  cases r with
  | cons _ _ => exact h
  | nil =>
      by_cases hc : c = '/'
      · rw [hc]
        exact hv
      · simp [opensComment, hc]

/-! ### Comments -/

/-- A character of code that opens no comment stays. -/
theorem separateFrom_code_cons {c : Char} {r : Text} (h : opensComment c r = false) (seen : Bool) :
    separateFrom .code seen (c :: r)
      = (separateFrom (if isQuote c then .literal c else .code)
          (seen || isBlockContent c) r).pushCode c := by
  by_cases hc : c = '/'
  · simp only [opensComment, hc, beq_self_eq_true, Bool.true_and, Bool.or_eq_false_iff] at h
    simp [separateFrom, hc, h.1, h.2]
  · simp [separateFrom, hc]

/-- From wherever a closed text is reached, all of it is code. -/
theorem separateFrom_eq {zone : Zone} {d : BlockDepth} {t : Text}
    (h : isClosedFrom zone d t = true) (seen : Bool) :
    separateFrom zone seen t = { code := t } := by
  fun_induction isClosedFrom zone d t generalizing seen with
  | case1 d => rfl
  | case2 d c r hquote ih =>
      have hslash : opensComment c r = false := by
        have hc : c ≠ '/' := by rintro rfl; revert hquote; decide
        simp [opensComment, hc]
      rw [separateFrom_code_cons hslash, if_pos hquote, ih h]
      rfl
  | case3 d c r hquote ih =>
      simp only [Bool.and_eq_true, Bool.not_eq_true'] at h
      rw [separateFrom_code_cons h.1.1, if_neg hquote, ih h.2]
      rfl
  | case4 q d c r zone ih =>
      rw [Bool.and_eq_true] at h
      rw [separateFrom, ih h.2]
      rfl
  | case5 q d c r ih =>
      rw [Bool.and_eq_true] at h
      rw [separateFrom, ih h.2]
      rfl
  | case6 => exact absurd h (by decide)

/-- **A closed text has no comments.** -/
theorem separateComments_eq {t : Text} (h : isClosed t = true) :
    separateComments t = (t, [], []) := by
  rw [separateComments, separateFrom_eq h]

/-! ### Cutting -/

/-- The depth at which the cutting stands. -/
def BlockState.depth (s : BlockState) : BlockDepth :=
  ⟨s.parens, s.angles⟩

/-- Puts a text in front of the rest of the block. -/
def BlockTail.prepend (t : Text) (b : BlockTail) : BlockTail :=
  { b with text := t ++ b.text }

/-- The end of a block: the end of the list or a comma. -/
def endsBlock (v : Text) : Bool :=
  v.head?.all (· == ',')

/-- A block does not end with the second half of a mark. -/
theorem opensComment_endsBlock {v : Text} (hv : endsBlock v = true) :
    opensComment '/' v = false := by
  cases v with
  | nil => rfl
  | cons e _ =>
      obtain rfl : e = ',' := by simpa [endsBlock] using hv
      rfl

section

variable {s : BlockState} {c : Char} {r : Text}

/-- A newline keeps the depth and the zone, unless it ends a comment. -/
theorem blocksFrom_newline (hs : s.zone = .code) :
    ∃ s', s'.zone = Zone.code ∧ s'.depth = s.depth ∧
      blocksFrom s ('\n' :: r) = (blocksFrom s' r).push '\n' := by
  refine ⟨s.newline, by simp [BlockState.newline, hs], rfl, ?_⟩
  rw [blocksFrom.eq_def s]
  rfl

/-- A character of code that neither opens anything nor separates two blocks goes to the block, and
the depth changes with it. -/
theorem blocksFrom_code_cons (hs : s.zone = .code) (hquote : ¬ isQuote c = true)
    (hcomment : opensComment c r = false) (hsep : isBlockSeparator s.depth c = false) :
    ∃ s', s'.zone = Zone.code ∧ s'.depth = s.depth.after c ∧
      blocksFrom s (c :: r) = (blocksFrom s' r).push c := by
  by_cases hnewline : c = '\n'
  · subst hnewline
    exact blocksFrom_newline hs
  have hline : (c == '/' && r.head? == some '/') = false := by
    simp only [opensComment, Bool.and_eq_false_imp, Bool.or_eq_false_iff] at hcomment ⊢
    exact fun hc => (hcomment hc).1
  have hblock : (c == '/' && r.head? == some '*') = false := by
    simp only [opensComment, Bool.and_eq_false_imp, Bool.or_eq_false_iff] at hcomment ⊢
    exact fun hc => (hcomment hc).2
  have hcomma : (c == ',' && s.parens == 0 && s.angles == 0) = false := by
    simpa [isBlockSeparator, BlockState.depth] using hsep
  rw [blocksFrom.eq_def s]
  simp only [beq_iff_eq, hnewline, if_false, hs, hquote, hline, hblock, hcomma, Bool.false_eq_true,
    BlockDepth.after]
  split_ifs
  all_goals refine ⟨_, ?_, ?_, rfl⟩ <;> rfl

/-- A quote opens a literal. -/
theorem blocksFrom_quote_cons (hs : s.zone = .code) (hquote : isQuote c = true) :
    blocksFrom s (c :: r) = (blocksFrom { s with zone := .literal c } r).push c := by
  have hc : c ≠ '\n' := by
    rintro rfl
    exact absurd hquote (by decide)
  rw [blocksFrom.eq_def s]
  simp [hs, hc, hquote]

/-- A character inside a literal goes to the block. -/
theorem blocksFrom_literal_cons {q : Char} (hs : s.zone = .literal q) (hc : c ≠ '\n') :
    blocksFrom s (c :: r)
      = (blocksFrom { s with zone := (if c == '\\' then .escaped q else if c == q then .code
          else .literal q) } r).push c := by
  rw [blocksFrom.eq_def s]
  simp [hs, hc]

/-- So does a character behind a backslash. -/
theorem blocksFrom_escaped_cons {q : Char} (hs : s.zone = .escaped q) (hc : c ≠ '\n') :
    blocksFrom s (c :: r) = (blocksFrom { s with zone := .literal q } r).push c := by
  rw [blocksFrom.eq_def s]
  simp [hs, hc]

/-- A separator ends the block; what its claim leaves is cut from the start. -/
theorem blocksFrom_separator (hs : s.zone = .code) (hdepth : s.depth = {})
    (hclaim : claimTrailing r = ⟨[], r, false⟩) :
    blocksFrom s (',' :: r) = ⟨[], s.onNewLine, s.indent, parameterBlocks r⟩ := by
  obtain ⟨hparens, hangles⟩ := BlockDepth.mk.inj hdepth
  rw [blocksFrom.eq_def s]
  simp [hs, hparens, hangles, hclaim, isQuote, isSpaceOrTab, parameterBlocks]

end

/-- **A closed text stays in its block**, and the cutting stands outside of everything behind it. -/
theorem blocksFrom_append {zone : Zone} {d : BlockDepth} {u v : Text}
    (h : isClosedFrom zone d u = true) (hv : endsBlock v = true) {s : BlockState}
    (hzone : s.zone = zone) (hdepth : s.depth = d) :
    ∃ s', s'.zone = Zone.code ∧ s'.depth = {} ∧
      blocksFrom s (u ++ v) = (blocksFrom s' v).prepend u := by
  fun_induction isClosedFrom zone d u generalizing s with
  | case1 d => exact ⟨s, hzone, by simpa [hdepth] using h, rfl⟩
  | case2 d c r hquote ih =>
      obtain ⟨s', hcode, hout, hread⟩ := ih h (s := { s with zone := .literal c }) rfl hdepth
      refine ⟨s', hcode, hout, ?_⟩
      rw [List.cons_append, blocksFrom_quote_cons hzone hquote, hread]
      rfl
  | case3 d c r hquote ih =>
      simp only [Bool.and_eq_true, Bool.not_eq_true'] at h
      obtain ⟨⟨hcomment, hsep⟩, hrest⟩ := h
      subst hdepth
      obtain ⟨t, htzone, htdepth, hstep⟩ := blocksFrom_code_cons hzone hquote
        (opensComment_append hcomment (opensComment_endsBlock hv)) hsep
      obtain ⟨s', hcode, hout, hread⟩ := ih hrest htzone htdepth
      exact ⟨s', hcode, hout, by rw [List.cons_append, hstep, hread]; rfl⟩
  | case4 q d c r zone ih =>
      simp only [Bool.and_eq_true, bne_iff_ne] at h
      obtain ⟨s', hcode, hout, hread⟩ := ih h.2 (s := { s with zone := zone }) rfl hdepth
      refine ⟨s', hcode, hout, ?_⟩
      rw [List.cons_append, blocksFrom_literal_cons hzone h.1, hread]
      rfl
  | case5 q d c r ih =>
      simp only [Bool.and_eq_true, bne_iff_ne] at h
      obtain ⟨s', hcode, hout, hread⟩ := ih h.2 (s := { s with zone := .literal q }) rfl hdepth
      refine ⟨s', hcode, hout, ?_⟩
      rw [List.cons_append, blocksFrom_escaped_cons hzone h.1, hread]
      rfl
  | case6 => exact absurd h (by decide)

/-! ### Between two blocks -/

/-- Behind a separator a closed text starts with no comment, whatever blanks it has in front. -/
theorem dropWhile_closed {u v : Text} (h : isClosed u = true) (hv : endsBlock v = true) :
    ∀ c r, (u ++ v).dropWhile isSpaceOrTab = c :: r → opensComment c r = false := by
  induction u with
  | nil =>
      intro c r hdrop
      cases v with
      | nil => exact absurd hdrop (by simp)
      | cons e v =>
          obtain rfl : e = ',' := by simpa [endsBlock] using hv
          obtain ⟨rfl, -⟩ := List.cons.inj hdrop
          rfl
  | cons b u ih =>
      intro c r hdrop
      by_cases hblank : isSpaceOrTab b = true
      · have hu : isClosed u = true := by
          simp only [isSpaceOrTab, Bool.or_eq_true, beq_iff_eq] at hblank
          rcases hblank with rfl | rfl <;> exact h
        rw [List.cons_append, List.dropWhile_cons_of_pos hblank] at hdrop
        exact ih hu c r hdrop
      · rw [List.cons_append, List.dropWhile_cons_of_neg hblank] at hdrop
        obtain ⟨rfl, rfl⟩ := List.cons.inj hdrop
        by_cases hquote : isQuote b = true
        · have hb : b ≠ '/' := by rintro rfl; exact absurd hquote (by decide)
          simp [opensComment, hb]
        · simp only [isClosed, isClosedFrom, if_neg hquote, Bool.and_eq_true,
            Bool.not_eq_true'] at h
          exact opensComment_append h.1.1 (opensComment_endsBlock hv)

/-- A text opens a comment when it starts with one of the two marks. -/
theorem startsWith_eq_false {c : Char} {r : Text} (h : opensComment c r = false) :
    Text.startsWith (c :: r) "//" = false ∧ Text.startsWith (c :: r) "/*" = false := by
  have hmark : ∀ d, Text.startsWith (c :: r) ['/', d] = (c == '/' && r.head? == some d) := by
    intro d
    cases r with
    | nil => simp [Text.startsWith, List.isPrefixOf]
    | cons e r =>
        simp [Text.startsWith, List.isPrefixOf, BEq.comm (a := '/'), BEq.comm (a := d)]
  rw [opensComment, Bool.and_or_distrib_left, Bool.or_eq_false_iff] at h
  exact ⟨(hmark '/').trans h.1, (hmark '*').trans h.2⟩

/-- A separator claims nothing of a closed text behind it. -/
theorem claimTrailing_closed {u v : Text} (h : isClosed u = true) (hv : endsBlock v = true) :
    claimTrailing (u ++ v) = ⟨[], u ++ v, false⟩ := by
  have hdrop : ((u ++ v).takeWhile isSpaceOrTab ++ (u ++ v).dropWhile isSpaceOrTab).drop
      ((u ++ v).takeWhile isSpaceOrTab).length = (u ++ v).dropWhile isSpaceOrTab := List.drop_left
  rw [List.takeWhile_append_dropWhile] at hdrop
  have hno := dropWhile_closed h hv
  rw [claimTrailing, hdrop]
  cases hrest : (u ++ v).dropWhile isSpaceOrTab with
  | nil => rfl
  | cons c r =>
      obtain ⟨hline, hblock⟩ := startsWith_eq_false (hno c r hrest)
      simp only [hline, hblock, Bool.false_eq_true, if_false]
      rfl

/-- Joined texts start with the first of them, and its block ends there. -/
theorem exists_join_cons (t : Text) (ts : List Text) :
    ∃ v, endsBlock v = true ∧ Text.join "," (t :: ts) = t ++ v := by
  cases ts with
  | nil => exact ⟨[], rfl, by simp [Text.join]⟩
  | cons u ts =>
      exact ⟨',' :: Text.join "," (u :: ts), rfl, by simp [Text.join, List.intercalate_cons_cons]⟩

/-- A block with something in it comes before the blocks behind it. -/
theorem map_text_blocks_prepend {t : Text} (ht : t.isBlank = false) (onNewLine : Bool)
    (indent : Nat) (more : List ParameterBlock) :
    (BlockTail.prepend t ⟨[], onNewLine, indent, more⟩).blocks.map (·.text)
      = t :: more.map (·.text) := by
  simp [BlockTail.blocks, BlockTail.prepend, ht]

/-- **Cutting undoes joining**: closed texts with something in them, joined by commas, are cut into
these texts again. -/
theorem map_text_parameterBlocks {ts : List Text}
    (h : ∀ t ∈ ts, isClosed t = true ∧ t.isBlank = false) :
    (parameterBlocks (Text.join "," ts)).map (·.text) = ts := by
  induction ts with
  | nil => simp [parameterBlocks, Text.join, blocksFrom, BlockTail.blocks, Text.isBlank]
  | cons t ts ih =>
      obtain ⟨hclosed, hblank⟩ := h t List.mem_cons_self
      cases ts with
      | nil =>
          obtain ⟨s, -, -, hread⟩ := blocksFrom_append (v := []) hclosed rfl (s := {}) rfl rfl
          have hend : blocksFrom s [] = ⟨[], s.onNewLine, s.indent, []⟩ := by rw [blocksFrom]
          rw [List.append_nil, hend] at hread
          rw [Text.join, List.intercalate_singleton, parameterBlocks, hread,
            map_text_blocks_prepend hblank]
          rfl
      | cons u ts =>
          have hrest := ih fun t ht => h t (List.mem_cons_of_mem _ ht)
          obtain ⟨v, hv, hjoin⟩ := exists_join_cons u ts
          have hclaim := claimTrailing_closed (h u (by simp)).1 hv
          rw [← hjoin] at hclaim
          obtain ⟨s, hzone, hdepth, hread⟩ :=
            blocksFrom_append (v := ',' :: Text.join "," (u :: ts)) hclosed rfl (s := {}) rfl rfl
          rw [blocksFrom_separator hzone hdepth hclaim] at hread
          have hcons : Text.join "," (t :: u :: ts) = t ++ ',' :: Text.join "," (u :: ts) := by
            simp [Text.join, List.intercalate_cons_cons]
          rw [hcons, parameterBlocks, hread, map_text_blocks_prepend hblank, hrest]

end Sharpen
