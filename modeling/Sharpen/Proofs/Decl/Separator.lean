import Mathlib.Data.List.Basic
import Mathlib.Data.List.TakeWhile
import Sharpen.Proofs.Decl.Closed

/-!
# Behind a Separator Comma

A separator comma divides a parameter list in two, and a comment behind it may belong to either
side. The cutting of a list keeps a zone, two depths and the layout of the block it is in; behind a
separator the first three are at their start again, and the last says nothing about the texts. So
the blocks behind a separator are those of the text there, cut on its own.

The texts that a separator divides may have comments, literals and brackets in them; all that is
asked is that the cutting stands outside of them at the separator. The scan of such a text has one
step for each zone, and each step is a lemma about the blocks, so that the statement about a whole
text is an induction that only names them. Four cases of what stands behind a separator are then
told apart.

## Main definitions

* `scanBlock` — where the cutting stands behind a text without separators, comments included.
* `blockTexts` — the raw texts of the blocks of a parameter list.
* `IsUndivided` — the text of one parameter with its comments: it has no separator in it, and the
  cutting stands outside of comments, literals and brackets behind it.
* `isCompleteFrom` — whether a text that is reached in the given zone ends outside of comments and
  literals, and not with a slash that may be half of a mark.
* `BlockState.Passes` — in front of `v`, the text `u` goes to the block it is reached in, and the
  cutting goes on behind it in the given zone and at the given depth.

## Main results

* `blocksFrom_append_scanBlock` — such a text stays in its block.
* `texts_blocksFrom` — the texts of blocks do not depend on their layout.
* `blockTexts_undivided_comma` — what a separator does, by what it claims.
* `blockTexts_separator` — which comments behind a separator belong to the parameter before it.
* `passesFrom_of_scanBlock` — a text without separators stays in its block, and the cutting goes on
  behind it from where the scan says.
* `exists_separator_of_scanBlock` — the first separator of a text has a text in front of it behind
  which the cutting stands outside of comments, literals and brackets.
-/

namespace Sharpen

/-- The raw texts of the blocks of a parameter list. -/
def blockTexts (t : Text) : List Text :=
  (parameterBlocks t).map (·.text)

/-! ### Texts without separators -/

/-- Where the cutting of a parameter list stands behind a text that it reaches in the given zone and
at the given depth, if there is no separator in the text. -/
def scanBlock : Zone → BlockDepth → Text → Option (Zone × BlockDepth)
  | zone, d, [] => some (zone, d)
  | .lineComment, d, c :: r => scanBlock (if c == '\n' then .code else .lineComment) d r
  | .blockComment, d, '*' :: '/' :: r => scanBlock .code d r
  | .blockComment, d, _ :: r => scanBlock .blockComment d r
  | .literal q, d, c :: r =>
    let zone : Zone := if c == '\n' then .literal q else if c == '\\' then .escaped q
      else if c == q then .code else .literal q
    scanBlock zone d r
  | .escaped q, d, c :: r => scanBlock (if c == '\n' then .escaped q else .literal q) d r
  | .code, d, c :: r =>
    if isQuote c then scanBlock (.literal c) d r
    else if c == '/' && r.head? == some '/' then scanBlock .lineComment d r
    else if c == '/' && r.head? == some '*' then scanBlock .blockComment d r
    else if isBlockSeparator d c then none
    else scanBlock .code (d.after c) r

/-- The text of one parameter with its comments: it has no separator in it, and the cutting stands
outside of comments, literals and brackets behind it. -/
def IsUndivided (t : Text) : Prop :=
  scanBlock .code {} t = some (.code, {})

instance (t : Text) : Decidable (IsUndivided t) :=
  inferInstanceAs (Decidable (scanBlock .code {} t = some (.code, {})))

section

variable {s : BlockState} {c : Char} {r : Text}

/-- A newline ends a comment up to the end of its line, and leaves everything else. -/
theorem blocksFrom_newline_cons (s : BlockState) (r : Text) :
    blocksFrom s ('\n' :: r) = (blocksFrom s.newline r).push '\n' := by
  rw [blocksFrom.eq_def s]
  rfl

/-- A character of a comment up to the end of its line goes to the block. -/
theorem blocksFrom_lineComment_cons (hs : s.zone = .lineComment) (hc : c ≠ '\n') :
    blocksFrom s (c :: r) = (blocksFrom s r).push c := by
  rw [blocksFrom.eq_def s]
  simp [hs, hc]

/-- The mark that closes a comment goes to the block. -/
theorem blocksFrom_blockComment_close (hs : s.zone = .blockComment) :
    blocksFrom s ('*' :: '/' :: r)
      = ((blocksFrom { s with zone := .code } r).push '/').push '*' := by
  rw [blocksFrom.eq_def s]
  simp [hs]

/-- So does a character of the comment before this mark. -/
theorem blocksFrom_blockComment_cons (hs : s.zone = .blockComment) (hc : c ≠ '\n')
    (hclose : ¬ (c = '*' ∧ r.head? = some '/')) :
    blocksFrom s (c :: r) = (blocksFrom s r).push c := by
  rw [blocksFrom.eq_def s]
  cases r with
  | nil => simp [hs, hc]
  | cons d r =>
      have hmark : (c == '*' && d == '/') = false := by simpa using hclose
      simp [hs, hc, hmark]

/-- Two slashes open a comment up to the end of the line. -/
theorem blocksFrom_slashes (hs : s.zone = .code) (hr : r.head? = some '/') :
    blocksFrom s ('/' :: r) = (blocksFrom { s with zone := .lineComment } r).push '/' := by
  rw [blocksFrom.eq_def s]
  simp [hs, hr, isQuote]

/-- A slash and a star open a comment up to its closing mark. -/
theorem blocksFrom_slashStar (hs : s.zone = .code) (hr : r.head? = some '*') :
    blocksFrom s ('/' :: r) = (blocksFrom { s with zone := .blockComment } r).push '/' := by
  rw [blocksFrom.eq_def s]
  simp [hs, hr, isQuote]

end

/-- Whether a text that is reached in the given zone ends outside of comments and literals, and not
with a slash that may be half of a mark. A literal has no line break, for the passes over a block
differ about one. -/
def isCompleteFrom : Zone → Text → Bool
  | .code, [] => true
  | .lineComment, c :: r => isCompleteFrom (if c == '\n' then .code else .lineComment) r
  | .blockComment, '*' :: '/' :: r => isCompleteFrom .code r
  | .blockComment, _ :: r => isCompleteFrom .blockComment r
  | .literal q, c :: r =>
    c != '\n' &&
      isCompleteFrom (if c == '\\' then .escaped q else if c == q then .code else .literal q) r
  | .escaped q, c :: r => c != '\n' && isCompleteFrom (.literal q) r
  | .code, c :: r =>
    if c == '/' && r.head? == some '/' then isCompleteFrom .lineComment r
    else if c == '/' && r.head? == some '*' then isCompleteFrom .blockComment r
    else !(c == '/' && r.isEmpty) && isCompleteFrom (if isQuote c then .literal c else .code) r
  | _, [] => false

/-- In front of `v`, the text `u` goes to the block it is reached in, and the cutting goes on behind
it in the given zone and at the given depth. -/
def BlockState.Passes (s : BlockState) (u v : Text) (zone : Zone) (d : BlockDepth) : Prop :=
  ∃ s' : BlockState, s'.zone = zone ∧ s'.depth = d ∧
    blocksFrom s (u ++ v) = (blocksFrom s' v).prepend u

section

variable {s t : BlockState} {c : Char} {r v : Text} {zone : Zone} {d : BlockDepth}

/-- One character goes to the block; what the rest does is known from the state behind it. -/
theorem BlockState.Passes.push
    (hstep : blocksFrom s (c :: (r ++ v)) = (blocksFrom t (r ++ v)).push c)
    (h : t.Passes r v zone d) : s.Passes (c :: r) v zone d := by
  obtain ⟨s', hzone, hdepth, hread⟩ := h
  exact ⟨s', hzone, hdepth, by rw [List.cons_append, hstep, hread]; rfl⟩

/-- The text behind does not change what a mark at the end of the text is. -/
theorem head?_append_ne {x : Char} (hx : x ≠ ',') (hend : endsBlock v = true ∨ r ≠ [])
    (hr : r.head? ≠ some x) : (r ++ v).head? ≠ some x := by
  cases r with
  | cons _ _ => exact hr
  | nil =>
      obtain hend | hne := hend
      · cases v with
        | nil => exact hr
        | cons e v =>
            obtain rfl : e = ',' := by simpa [endsBlock] using hend
            simpa using Ne.symm hx
      · exact absurd rfl hne

end

/-! ### One character of each zone -/

/-- In front of `v`, the text `u` goes to the block wherever it is reached in the one zone and at
the one depth, and the cutting goes on behind it in the other zone and at the other depth. -/
def PassesFrom (zone : Zone) (d : BlockDepth) (u v : Text) (zone' : Zone) (d' : BlockDepth) :
    Prop :=
  ∀ s : BlockState, s.zone = zone → s.depth = d → s.Passes u v zone' d'

namespace PassesFrom

variable {c q : Char} {r v : Text} {zone zone' : Zone} {d d' : BlockDepth}

/-- A newline goes to the block in every zone, and ends a comment up to the end of the line. -/
theorem newline
    (h : PassesFrom (if zone = .lineComment then .code else zone) d r v zone' d') :
    PassesFrom zone d ('\n' :: r) v zone' d' := by
  intro s hzone hdepth
  refine .push (blocksFrom_newline_cons s _) (h _ ?_ hdepth)
  rw [BlockState.newline, hzone]
  cases zone <;> rfl

/-- A character of a comment up to the end of the line. -/
theorem lineComment
    (h : PassesFrom (if c == '\n' then .code else .lineComment) d r v zone' d') :
    PassesFrom .lineComment d (c :: r) v zone' d' := by
  by_cases hc : c = '\n'
  · subst hc
    exact newline h
  · rw [if_neg (by simpa using hc)] at h
    intro s hzone hdepth
    exact .push (blocksFrom_lineComment_cons hzone hc) (h s hzone hdepth)

/-- The mark that closes a comment. -/
theorem closeComment (h : PassesFrom .code d r v zone' d') :
    PassesFrom .blockComment d ('*' :: '/' :: r) v zone' d' := by
  intro s hzone hdepth
  obtain ⟨s', hzone', hdepth', hread⟩ := h { s with zone := .code } rfl hdepth
  refine ⟨s', hzone', hdepth', ?_⟩
  rw [List.cons_append, List.cons_append, blocksFrom_blockComment_close hzone, hread]
  rfl

/-- A character of a comment before the mark that closes it. -/
theorem blockComment (hclose : ¬ (c = '*' ∧ (r ++ v).head? = some '/'))
    (h : PassesFrom .blockComment d r v zone' d') :
    PassesFrom .blockComment d (c :: r) v zone' d' := by
  by_cases hc : c = '\n'
  · subst hc
    exact newline h
  · intro s hzone hdepth
    exact .push (blocksFrom_blockComment_cons hzone hc hclose) (h s hzone hdepth)

/-- A character of a literal. -/
theorem literal
    (h : PassesFrom (if c == '\n' then .literal q else if c == '\\' then .escaped q
      else if c == q then .code else .literal q) d r v zone' d') :
    PassesFrom (.literal q) d (c :: r) v zone' d' := by
  by_cases hc : c = '\n'
  · subst hc
    exact newline h
  · rw [if_neg (by simpa using hc)] at h
    intro s hzone hdepth
    exact .push (blocksFrom_literal_cons hzone hc) (h _ rfl hdepth)

/-- The character behind a backslash in a literal. -/
theorem escaped
    (h : PassesFrom (if c == '\n' then .escaped q else .literal q) d r v zone' d') :
    PassesFrom (.escaped q) d (c :: r) v zone' d' := by
  by_cases hc : c = '\n'
  · subst hc
    exact newline h
  · rw [if_neg (by simpa using hc)] at h
    intro s hzone hdepth
    exact .push (blocksFrom_escaped_cons hzone hc) (h _ rfl hdepth)

/-- A quote opens a literal. -/
theorem quote (hquote : isQuote c = true) (h : PassesFrom (.literal c) d r v zone' d') :
    PassesFrom .code d (c :: r) v zone' d' :=
  fun _ hzone hdepth => .push (blocksFrom_quote_cons hzone hquote) (h _ rfl hdepth)

/-- Two slashes open a comment up to the end of the line. -/
theorem slashes (hr : r.head? = some '/') (h : PassesFrom .lineComment d r v zone' d') :
    PassesFrom .code d ('/' :: r) v zone' d' := by
  have hmark : (r ++ v).head? = some '/' := by rw [List.head?_append, hr, Option.some_or]
  exact fun _ hzone hdepth => .push (blocksFrom_slashes hzone hmark) (h _ rfl hdepth)

/-- A slash and a star open a comment up to its closing mark. -/
theorem slashStar (hr : r.head? = some '*') (h : PassesFrom .blockComment d r v zone' d') :
    PassesFrom .code d ('/' :: r) v zone' d' := by
  have hmark : (r ++ v).head? = some '*' := by rw [List.head?_append, hr, Option.some_or]
  exact fun _ hzone hdepth => .push (blocksFrom_slashStar hzone hmark) (h _ rfl hdepth)

/-- A character of the code that is no separator. -/
theorem code (hquote : ¬ isQuote c = true) (hcomment : opensComment c (r ++ v) = false)
    (hsep : ¬ isBlockSeparator d c = true) (h : PassesFrom .code (d.after c) r v zone' d') :
    PassesFrom .code d (c :: r) v zone' d' := by
  intro s hzone hdepth
  subst hdepth
  obtain ⟨t, htzone, htdepth, hstep⟩ :=
    blocksFrom_code_cons hzone hquote hcomment (Bool.not_eq_true _ ▸ hsep)
  exact .push hstep (h t htzone htdepth)

end PassesFrom

/-! ### Behind a character -/

section

variable {c q : Char} {r v : Text}

/-- Behind a character of a literal that is complete, the rest is complete. -/
theorem isCompleteFrom_literal (h : isCompleteFrom (.literal q) (c :: r) = true) :
    isCompleteFrom (if c == '\n' then .literal q else if c == '\\' then .escaped q
      else if c == q then .code else .literal q) r = true := by
  rw [isCompleteFrom, Bool.and_eq_true, bne_iff_ne] at h
  rw [if_neg (by simpa using h.1)]
  exact h.2

/-- And so it is behind an escaped character. -/
theorem isCompleteFrom_escaped (h : isCompleteFrom (.escaped q) (c :: r) = true) :
    isCompleteFrom (if c == '\n' then .escaped q else .literal q) r = true := by
  rw [isCompleteFrom, Bool.and_eq_true, bne_iff_ne] at h
  rw [if_neg (by simpa using h.1)]
  exact h.2

/-- A slash that opens no comment in a complete text, or in front of the end of a block, opens none
with what follows. -/
theorem opensComment_append_of_endsBlock (hline : ¬ (c == '/' && r.head? == some '/') = true)
    (hblock : ¬ (c == '/' && r.head? == some '*') = true)
    (hend : endsBlock v = true ∨ (!(c == '/' && r.isEmpty)) = true) :
    opensComment c (r ++ v) = false := by
  simp only [opensComment, Bool.and_eq_false_imp, beq_iff_eq]
  rintro rfl
  have hend : endsBlock v = true ∨ r ≠ [] := hend.imp_right fun hcomplete => by
    simpa using hcomplete
  have hslash := head?_append_ne (x := '/') (by decide) hend (by simpa using hline)
  have hstar := head?_append_ne (x := '*') (by decide) hend (by simpa using hblock)
  rw [Bool.or_eq_false_iff, beq_eq_false_iff_ne, beq_eq_false_iff_ne]
  exact ⟨hslash, hstar⟩

/-- Nor does a star close a comment with what follows that does not close it in the text. -/
theorem not_closesComment_append (hclose : ∀ r', c = '*' → r = '/' :: r' → False)
    (hend : endsBlock v = true ∨ isCompleteFrom .blockComment r = true) :
    ¬ (c = '*' ∧ (r ++ v).head? = some '/') := by
  rintro ⟨rfl, hhead⟩
  have hend : endsBlock v = true ∨ r ≠ [] := by
    refine hend.imp_right ?_
    rintro hcomplete rfl
    cases hcomplete
  refine head?_append_ne (by decide) hend (fun hr => ?_) hhead
  obtain ⟨r', rfl⟩ := List.head?_eq_some_iff.mp hr
  exact hclose r' rfl rfl

end

/-- **A text without separators stays in its block**, and the cutting goes on behind it from where
the scan says. What follows must not change what a mark at the end of the text is. -/
theorem passesFrom_of_scanBlock {zone zone' : Zone} {d d' : BlockDepth} {u v : Text}
    (h : scanBlock zone d u = some (zone', d'))
    (hv : endsBlock v = true ∨ isCompleteFrom zone u = true) : PassesFrom zone d u v zone' d' := by
  fun_induction scanBlock zone d u with
  | case1 zone d =>
      obtain ⟨rfl, rfl⟩ := Prod.mk.inj (Option.some.inj h)
      exact fun s hzone hdepth => ⟨s, hzone, hdepth, rfl⟩
  | case2 d c r ih =>
      rw [isCompleteFrom] at hv
      exact .lineComment (ih h hv)
  | case3 d r ih =>
      rw [isCompleteFrom] at hv
      exact .closeComment (ih h hv)
  | case4 d c r hclose ih =>
      rw [isCompleteFrom.eq_4 c r hclose] at hv
      exact .blockComment (not_closesComment_append hclose hv) (ih h hv)
  | case5 q d c r zone ih => exact .literal (ih h (hv.imp_right isCompleteFrom_literal))
  | case6 q d c r ih => exact .escaped (ih h (hv.imp_right isCompleteFrom_escaped))
  | case7 d c r hquote ih =>
      have hslash : c ≠ '/' := by
        rintro rfl
        cases hquote
      refine .quote hquote (ih h ?_)
      simpa [isCompleteFrom, hslash, hquote] using hv
  | case8 d c r hquote hline ih =>
      rw [isCompleteFrom, if_pos hline] at hv
      obtain ⟨rfl, hr⟩ : c = '/' ∧ r.head? = some '/' := by simpa using hline
      exact .slashes hr (ih h hv)
  | case9 d c r hquote hline hblock ih =>
      rw [isCompleteFrom, if_neg hline, if_pos hblock] at hv
      obtain ⟨rfl, hr⟩ : c = '/' ∧ r.head? = some '*' := by simpa using hblock
      exact .slashStar hr (ih h hv)
  | case10 d c r hquote hline hblock hsep => cases h
  | case11 d c r hquote hline hblock hsep ih =>
      rw [isCompleteFrom, if_neg hline, if_neg hblock, if_neg hquote, Bool.and_eq_true] at hv
      have hopens := opensComment_append_of_endsBlock hline hblock (hv.imp_right And.left)
      exact .code hquote hopens hsep (ih h (hv.imp_right And.right))

/-- The end of a block completes no mark. -/
theorem blocksFrom_append_scanBlock {zone zone' : Zone} {d d' : BlockDepth} {u v : Text}
    (h : scanBlock zone d u = some (zone', d')) (hv : endsBlock v = true) {s : BlockState}
    (hzone : s.zone = zone) (hdepth : s.depth = d) : s.Passes u v zone' d' :=
  passesFrom_of_scanBlock h (.inl hv) s hzone hdepth

/-- **The first separator of a text** has a text in front of it behind which the cutting stands
outside of comments, literals and brackets. -/
theorem exists_separator_of_scanBlock {zone : Zone} {d : BlockDepth} {t : Text}
    (h : scanBlock zone d t = none) :
    ∃ u v, t = u ++ ',' :: v ∧ scanBlock zone d u = some (.code, {}) := by
  fun_induction scanBlock zone d t with
  | case1 zone d => cases h
  | case2 d c r ih =>
      obtain ⟨u, v, rfl, hu⟩ := ih h
      exact ⟨c :: u, v, rfl, by rw [scanBlock]; exact hu⟩
  | case3 d r ih =>
      obtain ⟨u, v, rfl, hu⟩ := ih h
      exact ⟨'*' :: '/' :: u, v, rfl, by rw [scanBlock]; exact hu⟩
  | case4 d c r hclose ih =>
      obtain ⟨u, v, rfl, hu⟩ := ih h
      refine ⟨c :: u, v, rfl, ?_⟩
      rw [scanBlock]
      · exact hu
      · rintro r rfl rfl
        exact hclose _ rfl rfl
  | case5 q d c r zone ih =>
      obtain ⟨u, v, rfl, hu⟩ := ih h
      exact ⟨c :: u, v, rfl, by rw [scanBlock]; exact hu⟩
  | case6 q d c r ih =>
      obtain ⟨u, v, rfl, hu⟩ := ih h
      exact ⟨c :: u, v, rfl, by rw [scanBlock]; exact hu⟩
  | case7 d c r hquote ih =>
      obtain ⟨u, v, rfl, hu⟩ := ih h
      exact ⟨c :: u, v, rfl, by rw [scanBlock, if_pos hquote]; exact hu⟩
  | case8 d c r hquote hline ih =>
      obtain ⟨u, v, rfl, hu⟩ := ih h
      refine ⟨c :: u, v, rfl, ?_⟩
      rw [scanBlock, if_neg hquote, if_pos]
      · exact hu
      · cases u <;> simp_all
  | case9 d c r hquote hline hblock ih =>
      obtain ⟨u, v, rfl, hu⟩ := ih h
      refine ⟨c :: u, v, rfl, ?_⟩
      rw [scanBlock, if_neg hquote, if_neg, if_pos]
      · exact hu
      · cases u <;> simp_all
      · cases u <;> simp_all
  | case10 d c r hquote hline hblock hsep =>
      obtain ⟨rfl, rfl⟩ : c = ',' ∧ d = {} := by simpa [isBlockSeparator] using hsep
      exact ⟨[], r, rfl, rfl⟩
  | case11 d c r hquote hline hblock hsep ih =>
      obtain ⟨u, v, rfl, hu⟩ := ih h
      refine ⟨c :: u, v, rfl, ?_⟩
      rw [scanBlock, if_neg hquote, if_neg, if_neg, if_neg hsep]
      · exact hu
      · cases u <;> simp_all
      · cases u <;> simp_all

/-! ### Separators -/

/-- At a separator, the claimed text ends the block, and the text that is left is cut on its own. -/
theorem blocksFrom_comma {s : BlockState} (hs : s.zone = .code) (hdepth : s.depth = {}) (r : Text) :
    blocksFrom s (',' :: r) = ⟨(claimTrailing r).claimed, s.onNewLine, s.indent,
      (blocksFrom { onNewLine := (claimTrailing r).endsLine } (claimTrailing r).rest).blocks⟩ := by
  obtain ⟨hparens, hangles⟩ := BlockDepth.mk.inj hdepth
  rw [blocksFrom.eq_def s]
  simp [hs, hparens, hangles, isQuote, isSpaceOrTab]

/-- **The texts of blocks do not depend on their layout**: what two cuttings find that stand in one
zone and at one depth differs in nothing but the layout of the first block. -/
theorem texts_blocksFrom (s s' : BlockState) (hzone : s.zone = s'.zone)
    (hdepth : s.depth = s'.depth)
    (t : Text) :
    (blocksFrom s t).text = (blocksFrom s' t).text ∧
      (blocksFrom s t).more = (blocksFrom s' t).more := by
  cases hscan : scanBlock s'.zone s'.depth t with
  | some place =>
      obtain ⟨e, -, -, hread⟩ :=
        blocksFrom_append_scanBlock (v := []) hscan rfl (s := s) hzone hdepth
      obtain ⟨e', -, -, hread'⟩ :=
        blocksFrom_append_scanBlock (v := []) hscan rfl (s := s') rfl rfl
      rw [List.append_nil] at hread hread'
      rw [hread, hread', blocksFrom, blocksFrom]
      exact ⟨rfl, rfl⟩
  | none =>
      obtain ⟨u, v, rfl, hu⟩ := exists_separator_of_scanBlock hscan
      obtain ⟨e, hcode, hout, hread⟩ :=
        blocksFrom_append_scanBlock (v := ',' :: v) hu rfl (s := s) hzone hdepth
      obtain ⟨e', hcode', hout', hread'⟩ :=
        blocksFrom_append_scanBlock (v := ',' :: v) hu rfl (s := s') rfl rfl
      rw [hread, hread', blocksFrom_comma hcode hout, blocksFrom_comma hcode' hout']
      exact ⟨rfl, rfl⟩

/-- **What a separator does**: behind the text of one parameter, what it claims ends the block,
which counts unless it is blank, and the blocks after it are those of what it leaves. -/
theorem blockTexts_undivided_comma {p : Text} (hp : IsUndivided p) (r : Text) :
    blockTexts (p ++ ',' :: r)
      = ([p ++ (claimTrailing r).claimed].filter fun u => !u.isBlank)
        ++ blockTexts (claimTrailing r).rest := by
  obtain ⟨s, hzone, hdepth, hread⟩ :=
    blocksFrom_append_scanBlock (v := ',' :: r) hp rfl (s := {}) rfl rfl
  obtain ⟨htext, hmore⟩ := texts_blocksFrom { onNewLine := (claimTrailing r).endsLine } {} rfl rfl
    (claimTrailing r).rest
  rw [blockTexts, blockTexts, parameterBlocks, parameterBlocks, hread,
    blocksFrom_comma hzone hdepth]
  simp only [BlockTail.prepend, BlockTail.blocks, htext, hmore, List.filter_cons, List.filter_nil]
  split_ifs <;> simp_all

/-- A parameter that is not blank has its block. -/
theorem blockTexts_comma {p : Text} (hp : IsUndivided p) (hblank : p.isBlank = false) (r : Text) :
    blockTexts (p ++ ',' :: r)
      = (p ++ (claimTrailing r).claimed) :: blockTexts (claimTrailing r).rest := by
  have hwhole : (p ++ (claimTrailing r).claimed).isBlank = false := by
    rw [Text.isBlank, List.all_append, Bool.and_eq_false_iff]
    exact Or.inl hblank
  rw [blockTexts_undivided_comma hp, List.filter_cons_of_pos (by rw [hwhole]; rfl)]
  rfl

/-! ### Comments behind a separator -/

/-- The blanks that can stand behind the last word of a line. -/
def isLineBlank (c : Char) : Bool :=
  isSpaceOrTab c || c == '\r'

/-- Whether a text starts with a comment. -/
def startsComment (t : Text) : Bool :=
  t.startsWith "//" || t.startsWith "/*"

section

variable {w w' c q : Text}

/-- A run of characters of a class ends in front of another one. -/
theorem takeWhile_append_cons {p : Char → Bool} (hw : w.all p = true) {x : Char} (hx : p x = false)
    (r : Text) : (w ++ x :: r).takeWhile p = w := by
  rw [List.takeWhile_append_of_pos (List.all_eq_true.mp hw),
    List.takeWhile_cons_of_neg (by simp [hx]), List.append_nil]

/-- The first closing mark behind the content of a comment is its own. -/
theorem find?_closeMark (hc : Text.hasInfix c "*/" = false) (r : Text) :
    Text.find? "*/" (c ++ '*' :: '/' :: r) = some c.length := by
  induction c with
  | nil => rfl
  | cons x c ih =>
      replace hc : (Text.find? ['*', '/'] (x :: c)).isSome = false := hc
      rw [Text.find?] at hc
      split at hc
      · cases hc
      · rename_i hmark
        have hmark' : ¬ List.isPrefixOf ['*', '/'] (x :: (c ++ '*' :: '/' :: r)) = true := by
          cases c with
          | nil => simp [List.isPrefixOf]
          | cons y c => simpa [List.isPrefixOf] using hmark
        rw [Option.isSome_map] at hc
        change Text.find? ['*', '/'] (x :: (c ++ '*' :: '/' :: r)) = _
        rw [Text.find?, if_neg hmark']
        exact congrArg (Option.map (· + 1)) (ih hc)

/-- The comment is cut behind this mark. -/
theorem cutBlockComment_eq (hc : Text.hasInfix c "*/" = false) (r : Text) :
    cutBlockComment ('/' :: '*' :: (c ++ '*' :: '/' :: r))
      = ('/' :: '*' :: (c ++ ['*', '/']), r) := by
  have hfind : Text.find? "*/" (('/' :: '*' :: (c ++ '*' :: '/' :: r)).drop 2) = some c.length :=
    find?_closeMark hc r
  have hsplit : '/' :: '*' :: (c ++ '*' :: '/' :: r) = ('/' :: '*' :: (c ++ ['*', '/'])) ++ r := by
    simp
  rw [cutBlockComment, hfind, hsplit]
  exact Prod.ext (List.take_left' (by simp)) (List.drop_left' (by simp))

/-- Where no comment follows, a separator claims nothing. -/
theorem claimTrailing_code (h : startsComment (q.dropWhile isSpaceOrTab) = false) :
    claimTrailing q = ⟨[], q, false⟩ := by
  have hdrop : q.drop (q.takeWhile isSpaceOrTab).length = q.dropWhile isSpaceOrTab := by
    conv_lhs => rw [← List.takeWhile_append_dropWhile (p := isSpaceOrTab) (l := q)]
    exact List.drop_left' (by rw [List.takeWhile_append_dropWhile])
  obtain ⟨hline, hblock⟩ := Bool.or_eq_false_iff.mp h
  simp only [claimTrailing, hdrop, hline, hblock]
  rfl

/-- A separator claims a comment up to the end of its line. -/
theorem claimTrailing_lineComment (hw : w.all isSpaceOrTab = true) (hc : '\n' ∉ c) :
    claimTrailing (w ++ '/' :: '/' :: (c ++ '\n' :: q))
      = ⟨w ++ '/' :: '/' :: (c ++ ['\n']), q, true⟩ := by
  have hend : ('/' :: '/' :: (c ++ '\n' :: q)).findIdx? (· == '\n') = some (c.length + 2) := by
    have hnone : c.findIdx? (· == '\n') = none := by
      rw [List.findIdx?_eq_none_iff]
      exact fun x hx => beq_false_of_ne fun h => hc (h ▸ hx)
    simp [List.findIdx?_cons, List.findIdx?_append, hnone]
  have hsplit : w ++ '/' :: '/' :: (c ++ '\n' :: q) = (w ++ '/' :: '/' :: (c ++ ['\n'])) ++ q := by
    simp
  rw [claimTrailing, takeWhile_append_cons hw (by decide), List.drop_left]
  simp only [show Text.startsWith ('/' :: '/' :: (c ++ '\n' :: q)) "//" = true from rfl, if_true,
    hend, Claim.take]
  rw [hsplit, List.take_left' (by simp; omega), List.drop_left' (by simp; omega)]

/-- What a separator does with a block comment depends on what follows the blanks behind it. -/
theorem claimTrailing_gap {gap : Text} (hw : w.all isSpaceOrTab = true)
    (hgap : gap.all isLineBlank = true) (hc : Text.hasInfix c "*/" = false)
    (hq : q.head?.any isLineBlank = false) :
    let t := w ++ '/' :: '*' :: (c ++ '*' :: '/' :: (gap ++ q))
    claimTrailing t = if q = [] then Claim.take t (w.length + (c.length + 4)) false
      else if q.head? = some '\n' then
        Claim.take t (w.length + (c.length + 4) + gap.length + 1) true
      else Claim.take t 0 false := by
  have hrun : (gap ++ q).takeWhile (fun c => isSpaceOrTab c || c == '\r') = gap := by
    cases q with
    | nil => rw [List.append_nil]; exact List.takeWhile_eq_self_iff.mpr (List.all_eq_true.mp hgap)
    | cons x r => exact takeWhile_append_cons hgap hq r
  dsimp only
  rw [claimTrailing, takeWhile_append_cons hw (by decide), List.drop_left]
  generalize w ++ '/' :: '*' :: (c ++ '*' :: '/' :: (gap ++ q)) = t
  dsimp only
  rw [if_neg (by simp [Text.startsWith]), if_pos (by simp [Text.startsWith]),
    cutBlockComment_eq hc, hrun, List.drop_left]
  cases q with
  | nil => simp
  | cons x r =>
      by_cases hx : x = '\n'
      · subst hx
        simp
      · simp [hx]

/-- Where something follows it, all depends on whether its line ends. -/
theorem claimTrailing_block (hw : w.all isSpaceOrTab = true) (hw' : w'.all isSpaceOrTab = true)
    (hc : Text.hasInfix c "*/" = false) {x : Char} {r : Text} (hx : isSpaceOrTab x = false)
    (hreturn : x ≠ '\r') :
    let t := w ++ '/' :: '*' :: (c ++ '*' :: '/' :: (w' ++ x :: r))
    claimTrailing t = if x = '\n' then Claim.take t (w.length + (c.length + 4) + w'.length + 1) true
      else Claim.take t 0 false := by
  have hgap : w'.all isLineBlank = true :=
    List.all_eq_true.mpr fun y hy => by simp [isLineBlank, List.all_eq_true.mp hw' y hy]
  have hread := claimTrailing_gap (q := x :: r) hw hgap hc (by simp [isLineBlank, hx, hreturn])
  simpa using hread

end

/-- **Which comments behind a separator belong to the parameter before it.** Let `p` be the text of
a parameter, with its comments, and `q` what comes later.
Where no comment follows the comma, the blocks are `p` and those of `q`. A comment up to the end of
its line belongs to `p`, and so does a block comment with nothing but blanks behind it on its line.
A block comment that something follows on its line belongs to the parameter there. -/
theorem blockTexts_separator {p : Text} (hp : IsUndivided p) (hblank : p.isBlank = false)
    (q : Text) :
    (startsComment (q.dropWhile isSpaceOrTab) = false →
      blockTexts (p ++ ',' :: q) = p :: blockTexts q) ∧
    (∀ w c : Text, w.all isSpaceOrTab = true → '\n' ∉ c →
      blockTexts (p ++ ',' :: (w ++ '/' :: '/' :: (c ++ '\n' :: q)))
        = (p ++ (w ++ '/' :: '/' :: (c ++ ['\n']))) :: blockTexts q) ∧
    (∀ w w' c : Text, w.all isSpaceOrTab = true → w'.all isSpaceOrTab = true →
      c.hasInfix "*/" = false →
      blockTexts (p ++ ',' :: (w ++ '/' :: '*' :: (c ++ '*' :: '/' :: (w' ++ '\n' :: q))))
        = (p ++ (w ++ '/' :: '*' :: (c ++ '*' :: '/' :: (w' ++ ['\n'])))) :: blockTexts q) ∧
    (∀ w w' c : Text, w.all isSpaceOrTab = true → w'.all isSpaceOrTab = true →
      c.hasInfix "*/" = false →
      (∃ x r, q = x :: r ∧ x ≠ ' ' ∧ x ≠ '\t' ∧ x ≠ '\r' ∧ x ≠ '\n') →
      blockTexts (p ++ ',' :: (w ++ '/' :: '*' :: (c ++ '*' :: '/' :: (w' ++ q))))
        = p :: blockTexts (w ++ '/' :: '*' :: (c ++ '*' :: '/' :: (w' ++ q)))) := by
  refine ⟨fun hq => ?_, fun w c hw hc => ?_, fun w w' c hw hw' hc => ?_, ?_⟩
  · rw [blockTexts_comma hp hblank, claimTrailing_code hq, List.append_nil]
  · rw [blockTexts_comma hp hblank, claimTrailing_lineComment hw hc]
  · have hsplit : w ++ '/' :: '*' :: (c ++ '*' :: '/' :: (w' ++ '\n' :: q))
        = (w ++ '/' :: '*' :: (c ++ '*' :: '/' :: (w' ++ ['\n']))) ++ q := by simp
    rw [blockTexts_comma hp hblank, claimTrailing_block hw hw' hc (by decide) (by decide),
      if_pos rfl, Claim.take, hsplit, List.take_left' (by simp; omega),
      List.drop_left' (by simp; omega)]
  · rintro w w' c hw hw' hc ⟨x, r, rfl, hspace, htab, hreturn, hnewline⟩
    rw [blockTexts_comma hp hblank,
      claimTrailing_block hw hw' hc (by simp [isSpaceOrTab, hspace, htab]) hreturn,
      if_neg hnewline]
    simp [Claim.take]

/-- The text of a parameter that has commas in its brackets and in its comment. -/
def keyedParameter : Text := "map<int, int> m /* keys, values */"

/-- A comment behind it stays with it if it ends its line, and goes to the next parameter if not. -/
theorem blockTexts_keyedParameter :
    IsUndivided keyedParameter ∧ keyedParameter.isBlank = false ∧
    blockTexts (keyedParameter ++ ("," ++ "int n" : Text)) = [keyedParameter, "int n"] ∧
    blockTexts (keyedParameter ++ ("," ++ " // sorted\n" ++ "int n" : Text))
      = [keyedParameter ++ (" // sorted\n" : Text), "int n"] ∧
    blockTexts (keyedParameter ++ ("," ++ " /* sorted */ \n" ++ "int n" : Text))
      = [keyedParameter ++ (" /* sorted */ \n" : Text), "int n"] ∧
    blockTexts (keyedParameter ++ ("," ++ " /* size */ int n" : Text))
      = [keyedParameter, " /* size */ int n"] := by
  have hp : IsUndivided keyedParameter := by decide
  have hblank : keyedParameter.isBlank = false := by decide
  have hnext : blockTexts "int n" = ["int n"] := by decide +kernel
  have hnext' : blockTexts " /* size */ int n" = [" /* size */ int n"] := by decide +kernel
  obtain ⟨hcode, hline, hblock, hleading⟩ := blockTexts_separator hp hblank "int n"
  refine ⟨hp, hblank, ?_, ?_, ?_, ?_⟩
  · exact (hcode rfl).trans (congrArg _ hnext)
  · exact (hline " " " sorted" rfl (by decide)).trans (congrArg _ hnext)
  · exact (hblock " " " " " sorted " rfl rfl rfl).trans (congrArg _ hnext)
  · exact (hleading " " " " " size " rfl rfl rfl ⟨_, _, rfl, by decide⟩).trans (congrArg _ hnext')

end Sharpen
