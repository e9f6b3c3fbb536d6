import Sharpen.Proofs.Code.Zones
import Sharpen.Proofs.Decl.TakenOnce
import Sharpen.Proofs.TypeKey.Spelling

/-!
# Code Among Comment Lines

Comments are taken line by line: a line is taken for what it starts and ends with. The masked copy
goes by characters. The two views agree up to the mark that closes a comment, and what stands behind
this mark on the lines of the comment is taken with it, code or not.

A comment that is taken starts with one of the two marks or stands inside of a comment that did. Its
masked copy is blank up to the closing mark, and the rest of its last line is code like any other.
So the condition under which nothing but comments is taken is about the closing marks alone, if
literals end on their lines; otherwise a mark may stand in a literal.

## Main definitions

* `behindComment` — what is behind the comment that a text starts with, or starts inside of.
* `behindMark` — what is behind the first mark that closes a comment.
* `AtComment` — a text that starts with a comment, inside of one or with nothing at all.
* `LiteralsEnd` — every line of a text starts in code or in a block comment: its literals end on
  their lines.

## Main results

* `solid_take_maskFrom_iff` — the masked copy of such a text has no more than the code of that.
* `Climbs.exists_comment`, `atComment_bannerSpan` — lines that are taken belong to comments.
* `taken_isBlank_iff` — the lines that are taken are blank in the masked copy just if no comment
  among them has code behind its closing mark.
* `IsComment.atComment` — the lines of a comment start with a comment, if they do not start inside
  of a literal.
* `isBlank_masked_iff` — when the lines of a comment are blank in the masked copy.
-/

namespace Sharpen

/-! ### Behind a comment -/

/-- What is behind the first mark that closes a comment. -/
def behindMark : Text → Text
  | [] => []
  | '*' :: '/' :: r => r
  | _ :: r => behindMark r

/-- What is behind the comment that a text starts with, or starts inside of. Nothing is behind a
comment up to the end of its line. -/
def behindComment : Zone → Text → Text
  | .blockComment, t => behindMark t
  | _, t =>
    match t.trimStart with
    | '/' :: '*' :: r => behindMark r
    | _ => []

/-- **A text that starts with a comment**, inside of one or with nothing at all. -/
inductive AtComment : Zone → Text → Prop
  | inside (t : Text) : AtComment .blockComment t
  | blank {t : Text} (h : t.isBlank = true) : AtComment .code t
  | line {gap t : Text} (hgap : gap.isBlank = true) (hline : '\n' ∉ t) :
      AtComment .code (gap ++ '/' :: '/' :: t)
  | block {gap : Text} (hgap : gap.isBlank = true) (t : Text) :
      AtComment .code (gap ++ '/' :: '*' :: t)

/-- A blank in front of a text adds nothing to what is not blank in its first part. -/
theorem solid_take_cons {c : Char} (hc : isBlank c = true) (v : Text) (n : Nat) :
    Text.solid ((c :: v).take (n + 1)) = Text.solid (v.take n) :=
  Text.solid_cons_of_blank hc _

/-- The code of a text is shown with another line behind it, all or none of it. -/
theorem solid_take_maskFrom_newline_iff {z : Zone} (u r : Text)
    (hz : z = .code ∨ z = .lineComment ∨ z = .blockComment) :
    Text.solid ((maskFrom z (u ++ '\n' :: r)).take u.length) = [] ↔ (maskFrom z u).solid = [] := by
  have hspace : isBlank ' ' = true := rfl
  fun_induction maskFrom z u with
  | case1 => simp
  | case2 u ih =>
      simp only [List.cons_append, List.length_cons, maskFrom, solid_take_cons hspace,
        Text.solid_cons_of_blank hspace]
      exact ih (by simp)
  | case3 u ih =>
      simp only [List.cons_append, List.length_cons, maskFrom, solid_take_cons hspace,
        Text.solid_cons_of_blank hspace]
      exact ih (by simp)
  | case4 c u hline hblock ih =>
      have happend := opensComment_append_newline (opensComment_eq_false hline hblock) r
      rw [List.cons_append, maskFrom_code_cons_of_opens happend, List.length_cons,
        List.take_succ_cons]
      by_cases hc : isBlank c = true
      · rw [Text.solid_cons_of_blank hc, Text.solid_cons_of_blank hc]
        refine ih (Or.inl (if_neg ?_))
        rw [isQuote, Bool.or_eq_true, beq_iff_eq, beq_iff_eq]
        rintro (rfl | rfl) <;> exact absurd hc (by decide)
      · rw [Bool.not_eq_true] at hc
        simp [Text.solid_cons_of_not_blank hc]
  | case5 c u ih =>
      simp only [List.cons_append, List.length_cons, maskFrom, solid_take_cons (isBlank_hide c),
        Text.solid_cons_of_blank (isBlank_hide c)]
      refine ih ?_
      split <;> simp
  | case6 u ih =>
      simp only [List.cons_append, List.length_cons, maskFrom, solid_take_cons hspace,
        Text.solid_cons_of_blank hspace]
      exact ih (by simp)
  | case7 c u hmark ih =>
      rw [List.cons_append, maskFrom, List.length_cons, solid_take_cons (isBlank_hide c),
        Text.solid_cons_of_blank (isBlank_hide c)]
      · exact ih (by simp)
      · exact ne_closing_append_newline hmark r
  | case8 => simp at hz
  | case9 => simp at hz
  | case10 => simp at hz
  | case11 => simp at hz
  | case12 => simp at hz

/-- What is on a line of code is masked entirely exactly when there is no code on it. -/
theorem solid_take_maskFrom_code_iff (u : Text) {r : Text} (hr : EndsLine r) :
    Text.solid ((maskFrom .code (u ++ r)).take u.length) = [] ↔ codeOnly u = [] := by
  rcases hr with rfl | ⟨v, rfl⟩
  · rw [List.append_nil, List.take_of_length_le (length_maskFrom _ _).le]
    rfl
  · exact solid_take_maskFrom_newline_iff u v (Or.inl rfl)

/-- What is on a line that starts in a comment is masked entirely exactly when there is no code
behind the comment. -/
theorem solid_take_maskFrom_blockComment_iff (u : Text) {r : Text} (hr : EndsLine r) :
    Text.solid ((maskFrom .blockComment (u ++ r)).take u.length) = [] ↔
      codeOnly (behindMark u) = [] := by
  have hspace : isBlank ' ' = true := rfl
  fun_induction behindMark u with
  | case1 => simp [codeOnly, maskCode, maskFrom]
  | case2 u =>
      simp only [List.cons_append, List.length_cons, maskFrom, solid_take_cons hspace]
      exact solid_take_maskFrom_code_iff u hr
  | case3 c u hmark ih =>
      rw [List.cons_append, maskFrom, List.length_cons, solid_take_cons (isBlank_hide c)]
      · exact ih
      · rcases hr with rfl | ⟨v, rfl⟩
        · simpa using hmark
        · exact ne_closing_append_newline hmark v

/-- A blank text has nothing else. -/
theorem solid_of_isBlank {t : Text} (h : t.isBlank = true) : t.solid = [] :=
  List.filter_eq_nil_iff.mpr fun c hc => by simp [List.all_eq_true.mp h c hc]

/-- Code that starts with a comment goes on behind its closing mark, and other code does not. -/
theorem behindComment_code (t : Text) :
    behindComment .code t = match t.trimStart with
      | '/' :: '*' :: r => behindMark r
      | _ => [] := rfl

/-- **What is shown of a text that starts with a comment**: nothing, or all the code behind it. -/
theorem solid_take_maskFrom_iff {z : Zone} {u r : Text} (hz : AtComment z u) (hr : EndsLine r) :
    Text.solid ((maskFrom z (u ++ r)).take u.length) = [] ↔ codeOnly (behindComment z u) = [] := by
  cases hz with
  | inside => exact solid_take_maskFrom_blockComment_iff u hr
  | blank h =>
      have hnil : Text.trimStart u = [] := List.dropWhile_eq_nil_iff.mpr (List.all_eq_true.mp h)
      rw [maskFrom_code_blanks h, List.take_left, behindComment_code, hnil]
      exact iff_of_true (solid_of_isBlank h) rfl
  | @line gap t hgap hline =>
      have hshown := isBlank_take_of_lineComment hgap hline r
      rw [behindComment_code, Text.trimStart_blank_append hgap]
      refine iff_of_true (solid_of_isBlank ?_) rfl
      simpa using hshown
  | @block gap hgap t =>
      have hbehind : behindComment .code (gap ++ '/' :: '*' :: t) = behindMark t := by
        rw [behindComment_code, Text.trimStart_blank_append hgap]
        rfl
      have htake : (gap ++ ' ' :: ' ' :: maskFrom .blockComment (t ++ r)).take
          (gap ++ '/' :: '*' :: t).length
          = gap ++ ' ' :: ' ' :: (maskFrom .blockComment (t ++ r)).take t.length := by
        rw [List.length_append, List.take_length_add_append]
        rfl
      rw [hbehind, List.append_assoc, List.cons_append, List.cons_append, maskFrom_code_blanks hgap,
        maskFrom, htake, Text.solid_append, solid_of_isBlank hgap, List.nil_append,
        Text.solid_cons_of_blank rfl, Text.solid_cons_of_blank rfl]
      exact solid_take_maskFrom_blockComment_iff t hr

/-! ### The comments that are taken -/

/-- A text has blanks in front of what is left of it when it is trimmed, and behind. -/
theorem exists_eq_append_trim (t : Text) :
    ∃ a b : Text, a.isBlank = true ∧ b.isBlank = true ∧ t = a ++ (t.trim ++ b) := by
  refine ⟨t.takeWhile isBlank, (t.trimStart.reverse.takeWhile isBlank).reverse,
    List.all_eq_true.mpr fun c hc => List.mem_takeWhile_imp hc,
    List.all_eq_true.mpr fun c hc => List.mem_takeWhile_imp (List.mem_reverse.mp hc), ?_⟩
  have hend : t.trim ++ (t.trimStart.reverse.takeWhile isBlank).reverse = t.trimStart := by
    rw [Text.trim, Text.trimEnd, Text.dropEndWhile, ← List.reverse_append,
      List.takeWhile_append_dropWhile, List.reverse_reverse]
  rw [hend]
  exact List.takeWhile_append_dropWhile.symm

/-- A line that starts with the mark of a block comment, whatever follows it. -/
theorem atComment_block {l : Text} (h : Text.startsWith l.trim "/*" = true) (v : Text) :
    AtComment .code (l ++ v) := by
  obtain ⟨a, b, ha, -, hl⟩ := exists_eq_append_trim l
  obtain ⟨w, hw⟩ := List.isPrefixOf_iff_prefix.mp h
  have heq : l ++ v = a ++ '/' :: '*' :: (w ++ b ++ v) := by
    conv_lhs => rw [hl, ← hw]
    simp
  exact heq ▸ .block ha _

/-- A line that starts with the mark of a comment up to its end. -/
theorem atComment_line {l : Text} (h : Text.startsWith l.trim "//" = true) (hl : '\n' ∉ l) :
    AtComment .code l := by
  obtain ⟨a, b, ha, -, heq⟩ := exists_eq_append_trim l
  obtain ⟨w, hw⟩ := List.isPrefixOf_iff_prefix.mp h
  have hline : l = a ++ '/' :: '/' :: (w ++ b) := by
    conv_lhs => rw [heq, ← hw]
    simp
  rw [hline] at hl ⊢
  exact .line ha fun hmem => hl (by simp [List.mem_append.mp hmem])

/-- Every line of a text starts in code or in a block comment: its literals end on their lines. -/
def LiteralsEnd (t : Text) : Prop :=
  ∀ i < t.lines.length, lineZone t i = .code ∨ lineZone t i = .blockComment

section

variable {t : Text} {first last : Nat}

/-- Some lines of a text start with the first of them. -/
theorem exists_linesBetween_eq (hle : first ≤ last) (hlt : last < t.lines.length) :
    ∃ v, linesBetween t first last = t.lines.getD first [] ++ v := by
  have hget : first < (t.lines.take (last + 1)).length := by
    rw [List.length_take]
    omega
  rw [linesBetween, List.drop_eq_getElem_cons hget, List.getElem_take,
    List.getD_eq_getElem _ _ (Nat.lt_of_le_of_lt hle hlt)]
  cases (t.lines.take (last + 1)).drop (first + 1) with
  | nil => exact ⟨[], by simp [Text.join]⟩
  | cons k ks => exact ⟨_, join_cons_cons _ _ k ks⟩

/-- From a line to the same line there is that line. -/
theorem linesBetween_self (hlt : first < t.lines.length) :
    linesBetween t first first = t.lines.getD first [] := by
  have hone : (t.lines.take (first + 1)).drop first = [t.lines[first]] := by
    rw [List.take_succ_eq_append_getElem hlt, List.drop_left' (by simp; omega)]
  rw [linesBetween, hone, List.getD_eq_getElem _ _ hlt]
  simp [Text.join]

/-- **The lines of a comment start with a comment**, if they do not start inside of a literal. -/
theorem IsComment.atComment (h : IsComment t.lines first last) (hlt : last < t.lines.length)
    (hliterals : LiteralsEnd t) : AtComment (lineZone t first) (linesBetween t first last) := by
  have hfirst : first < t.lines.length := Nat.lt_of_le_of_lt h.le hlt
  rcases hliterals first hfirst with hz | hz
  · rw [hz]
    cases h with
    | line hstart =>
        rw [linesBetween_self hfirst]
        refine atComment_line hstart (Text.newline_notMem_of_mem_lines (t := t) ?_)
        rw [List.getD_eq_getElem _ _ hfirst]
        exact List.getElem_mem hfirst
    | block _ _ hopens hstart =>
        obtain ⟨v, hv⟩ := exists_linesBetween_eq (Nat.lt_succ_iff.mp (lt_of_lastBelow? hopens)) hlt
        rw [hv]
        exact atComment_block hstart v
  · rw [hz]
    exact .inside _

/-- **When the lines of a comment are blank in the masked copy.** -/
theorem isBlank_masked_iff (h : AtComment (lineZone t first) (linesBetween t first last))
    (hle : first ≤ last) (hlt : last < t.lines.length) :
    (∀ i, first ≤ i → i ≤ last → isBlankLine (maskCode t).lines i = true) ↔
      codeOnly (behindComment (lineZone t first) (linesBetween t first last)) = [] := by
  obtain ⟨r, hr, -, hiff⟩ := isBlank_masked_lines_iff hle hlt
  exact hiff.trans (solid_take_maskFrom_iff h hr)

/-- The same for a single line. -/
theorem isBlankLine_masked_iff (h : AtComment (lineZone t first) (t.lines.getD first []))
    (hlt : first < t.lines.length) :
    isBlankLine (maskCode t).lines first = true ↔
      codeOnly (behindComment (lineZone t first) (t.lines.getD first [])) = [] := by
  rw [← linesBetween_self hlt] at h ⊢
  rw [← isBlank_masked_iff h (Nat.le_refl _) hlt]
  exact ⟨fun h i hi hi' => Nat.le_antisymm hi hi' ▸ h,
    fun h => h first (Nat.le_refl _) (Nat.le_refl _)⟩

/-- Behind a closing mark that is not in a blank text there is nothing. -/
theorem behindMark_of_isBlank {u : Text} (h : u.isBlank = true) : behindMark u = [] := by
  fun_induction behindMark u with
  | case1 => rfl
  | case2 u => exact absurd (List.all_eq_true.mp h '*' List.mem_cons_self) (by decide)
  | case3 c u _ ih => exact ih (List.all_eq_true.mpr fun x hx =>
      List.all_eq_true.mp h x (List.mem_cons_of_mem _ hx))

/-- Blank lines are blank in the masked copy. -/
theorem isBlankLine_masked_of_isBlankLine (hliterals : LiteralsEnd t) (hlt : first < t.lines.length)
    (h : isBlankLine t.lines first = true) : isBlankLine (maskCode t).lines first = true := by
  rcases hliterals first hlt with hz | hz
  · refine (isBlankLine_masked_iff (hz ▸ .blank h) hlt).mpr ?_
    have hnil : Text.trimStart (t.lines.getD first []) = [] :=
      List.dropWhile_eq_nil_iff.mpr (List.all_eq_true.mp h)
    rw [hz, behindComment_code, hnil]
    rfl
  · refine (isBlankLine_masked_iff (hz ▸ .inside _) hlt).mpr ?_
    rw [hz, behindComment, behindMark_of_isBlank h]
    rfl

end

/-- **What is climbed over** are blank lines and the lines of comments. -/
theorem Climbs.exists_comment {lines : List Text} {claimed : List Nat} {bottom n stop : Nat}
    (h : Climbs lines claimed bottom n stop) {i : Nat} (hi : stop ≤ i) (hin : i < n) :
    isBlankLine lines i = true ∨
      ∃ first last, IsComment lines first last ∧ stop ≤ first ∧ first ≤ i ∧ i ≤ last ∧
        last < n := by
  induction h with
  | stops => omega
  | @comment first last stop hcomment _ hclimbs ih =>
      by_cases hlt : i < first
      · rcases ih hi hlt with hblank | ⟨first', last', hcomment', hstop, hle, hle', hbelow⟩
        · exact Or.inl hblank
        · exact Or.inr ⟨first', last', hcomment', hstop, hle, hle',
            Nat.lt_succ_of_lt (Nat.lt_of_lt_of_le hbelow hcomment.le)⟩
      · exact Or.inr ⟨first, last, hcomment, hclimbs.le, by omega, by omega, Nat.lt_succ_self last⟩
  | @blanks n above stop _ habove _ ih =>
      have hcross := habove.lt
      by_cases hlt : i < above + 1
      · rcases ih hi hlt with hblank | ⟨first', last', hcomment', hstop, hle, hle', hbelow⟩
        · exact Or.inl hblank
        · exact Or.inr ⟨first', last', hcomment', hstop, hle, hle', by omega⟩
      · exact Or.inl (habove.blank i (by omega) hin)

/-! ### The banner -/

/-- A comment goes on behind a line without its closing mark. -/
theorem zoneBehindLine_blockComment {l : Text} (h : l.hasInfix "*/" = false) :
    zoneBehindLine .blockComment l = .blockComment := by
  rw [zoneBehindLine]
  induction l with
  | nil => rfl
  | cons c l ih =>
      obtain ⟨hmark, hl⟩ := hasInfix_cons_eq_false h
      rw [List.cons_append, zoneBehind, ih hl]
      refine ne_closing_append_newline ?_ []
      rintro r rfl rfl
      exact hmark ⟨rfl, rfl⟩

/-- A closing mark is at the start of a text or behind the first character. -/
theorem hasInfix_mark_cons (c : Char) (u : Text) :
    Text.hasInfix (c :: u) "*/" = (c == '*' && u.head? == some '/' || u.hasInfix "*/") := by
  rw [Text.hasInfix_cons]
  cases u with
  | nil => simp [List.isPrefixOf]
  | cons d u => simp [List.isPrefixOf, BEq.comm (a := c), BEq.comm (a := d)]

/-- A blank is neither half of a closing mark. -/
theorem ne_mark_of_isBlank {c : Char} (h : isBlank c = true) : c ≠ '*' ∧ c ≠ '/' := by
  constructor <;> rintro rfl <;> exact absurd h (by decide)

/-- Blanks in front of a text complete no mark. -/
theorem hasInfix_blank_append {a : Text} (ha : a.isBlank = true) (w : Text) :
    Text.hasInfix (a ++ w) "*/" = w.hasInfix "*/" := by
  induction a with
  | nil => rfl
  | cons c a ih =>
      obtain ⟨hc, ha⟩ := List.forall_mem_cons.mp (List.all_eq_true.mp ha)
      rw [List.cons_append, hasInfix_mark_cons, ih (List.all_eq_true.mpr ha)]
      simp [(ne_mark_of_isBlank hc).1]

/-- Nor do blanks behind it. -/
theorem hasInfix_append_blank {b : Text} (hb : b.isBlank = true) (w : Text) :
    Text.hasInfix (w ++ b) "*/" = w.hasInfix "*/" := by
  induction w with
  | nil => simpa using hasInfix_blank_append hb []
  | cons c w ih =>
      rw [List.cons_append, hasInfix_mark_cons, hasInfix_mark_cons, ih]
      cases w with
      | nil =>
          have hhead : b.head? ≠ some '/' := by
            intro hhead
            obtain ⟨v, rfl⟩ := List.head?_eq_some_iff.mp hhead
            exact (ne_mark_of_isBlank (List.all_eq_true.mp hb '/' List.mem_cons_self)).2 rfl
          simp [hhead]
      | cons => rfl

/-- Trimming a line leaves its closing marks. -/
theorem hasInfix_trim (l : Text) : Text.hasInfix l.trim "*/" = l.hasInfix "*/" := by
  obtain ⟨a, b, ha, hb, hl⟩ := exists_eq_append_trim l
  conv_rhs => rw [hl, hasInfix_blank_append ha, hasInfix_append_blank hb]

/-- Behind blanks of the code there is code. -/
theorem zoneBehind_code_blanks {a : Text} (ha : a.isBlank = true) (u : Text) :
    zoneBehind .code (a ++ u) = zoneBehind .code u := by
  induction a with
  | nil => rfl
  | cons c a ih =>
      have hc := List.all_eq_true.mp ha c List.mem_cons_self
      have hslash : c ≠ '/' := by
        rintro rfl
        exact absurd hc (by decide)
      have hquote : isQuote c = false := by
        rw [isQuote, Bool.or_eq_false_iff, beq_eq_false_iff_ne, beq_eq_false_iff_ne]
        constructor <;> rintro rfl <;> exact absurd hc (by decide)
      rw [List.cons_append, zoneBehind_code_cons_of_opens (by simp [opensComment, hslash]), hquote]
      exact ih (List.all_eq_true.mpr fun x hx =>
        List.all_eq_true.mp ha x (List.mem_cons_of_mem _ hx))

/-- A comment that starts on a line goes on behind it, unless the line has its closing mark. -/
theorem zoneBehindLine_code {l : Text} (hstart : Text.startsWith l.trim "/*" = true)
    (h : Text.hasInfix l.trim "*/" = false) : zoneBehindLine .code l = .blockComment := by
  obtain ⟨a, b, ha, hb, hl⟩ := exists_eq_append_trim l
  obtain ⟨w, hw⟩ := List.isPrefixOf_iff_prefix.mp hstart
  have hline : l = a ++ '/' :: '*' :: (w ++ b) := by
    conv_lhs => rw [hl, ← hw]
    simp
  have hrest : Text.hasInfix ('/' :: '*' :: (w ++ b)) "*/" = false := by
    rw [hasInfix_trim, hline, hasInfix_blank_append ha] at h
    exact h
  rw [hline, zoneBehindLine, List.append_assoc, zoneBehind_code_blanks ha]
  exact zoneBehindLine_blockComment (hasInfix_cons_eq_false (hasInfix_cons_eq_false hrest).2).2

/-- The lines of the banner start with comments. Where it takes a line for the inside of a comment,
the line is inside of one. -/
theorem atComment_bannerSpan {inBlock : Bool} {ls : List Text} {z : Zone} {n : Nat}
    (hspan : bannerSpan inBlock ls = some n) (hblock : inBlock = true → z = .blockComment)
    (hzones : ∀ i < ls.length, (ls.take i).foldl zoneBehindLine z = .code ∨
      (ls.take i).foldl zoneBehindLine z = .blockComment)
    (hlines : ∀ l ∈ ls, '\n' ∉ l) {i : Nat} (hi : i < n) :
    AtComment ((ls.take i).foldl zoneBehindLine z) (ls.getD i []) := by
  fun_induction bannerSpan inBlock ls generalizing z n i with
  | case1 =>
      obtain rfl := Option.some.inj hspan
      exact absurd hi (Nat.not_lt_zero i)
  | case2 l r ih =>
      obtain ⟨m, hm, rfl⟩ := Option.map_eq_some_iff.mp hspan
      have hz := hblock rfl
      cases i with
      | zero => exact hz ▸ .inside l
      | succ i =>
          refine ih hm (fun hopen => ?_) (fun j hj => hzones (j + 1) (Nat.succ_lt_succ hj))
            (List.forall_mem_cons.mp hlines).2 (Nat.lt_of_succ_lt_succ hi)
          rw [hz]
          exact zoneBehindLine_blockComment (by simpa using hopen)
  | case3 l r line hline =>
      rename_i ih
      obtain ⟨m, hm, rfl⟩ := Option.map_eq_some_iff.mp hspan
      cases i with
      | zero =>
          rcases hzones 0 (Nat.succ_pos _) with hz | hz
          · rw [hz]
            rcases Bool.or_eq_true_iff.mp hline with hblank | hstart
            · exact .blank (Text.trim_isEmpty l ▸ hblank)
            · exact atComment_line hstart (hlines l List.mem_cons_self)
          · exact hz ▸ .inside l
      | succ i =>
          exact ih hm Bool.noConfusion (fun j hj => hzones (j + 1) (Nat.succ_lt_succ hj))
            (List.forall_mem_cons.mp hlines).2 (Nat.lt_of_succ_lt_succ hi)
  | case4 l r line hline hstart =>
      rename_i ih
      obtain ⟨m, hm, rfl⟩ := Option.map_eq_some_iff.mp hspan
      cases i with
      | zero =>
          rcases hzones 0 (Nat.succ_pos _) with hz | hz
          · rw [hz]
            exact List.append_nil l ▸ atComment_block hstart []
          · exact hz ▸ .inside l
      | succ i =>
          refine ih hm (fun hopen => ?_) (fun j hj => hzones (j + 1) (Nat.succ_lt_succ hj))
            (List.forall_mem_cons.mp hlines).2 (Nat.lt_of_succ_lt_succ hi)
          rw [Bool.not_eq_true'] at hopen
          rcases hzones 0 (Nat.succ_pos _) with hz | hz
          · obtain rfl : z = .code := hz
            exact zoneBehindLine_code hstart hopen
          · obtain rfl : z = .blockComment := hz
            exact zoneBehindLine_blockComment (hasInfix_trim l ▸ hopen)
  | case5 =>
      obtain rfl := Option.some.inj hspan
      exact absurd hi (Nat.not_lt_zero i)
  | case6 => cases hspan

/-- The lines of the banner are among those that it looks through. -/
theorem lt_of_mem_bannerComments {lines : List Text} {i : Nat}
    (hi : i ∈ (bannerComments lines).claimed) :
    i < lines.length ∧ ∃ n, bannerSpan false lines = some n ∧ i < n := by
  rw [bannerComments] at hi
  set opening := lines.take ((bannerSpan false lines).getD 0) with hopening
  obtain ⟨below, hts⟩ := exists_eq_trimBlankLines_append opening
  have hlength := congrArg List.length hts
  rw [List.length_append, List.length_append] at hlength
  have hlt : i < opening.length := by
    have := List.mem_range'_1.mp (List.mem_append.mp hi |>.resolve_left List.not_mem_nil)
    omega
  rw [hopening, List.length_take] at hlt
  cases hspan : bannerSpan false lines with
  | none =>
      rw [hspan, Option.getD_none] at hlt
      omega
  | some n =>
      rw [hspan, Option.getD_some] at hlt
      exact ⟨by omega, n, rfl, by omega⟩

/-! ### All that is taken -/

/-- The searches are those at the indexes there are. -/
theorem index_mem_of_mem_searches {lines : List Text} {claimed indexes : List Nat}
    {s : CommentSearch}
    (hs : s ∈ searches lines claimed indexes) : s.index ∈ indexes := by
  induction indexes generalizing claimed with
  | nil => cases hs
  | cons index indexes ih =>
      rcases List.mem_cons.mp hs with rfl | hs
      · exact List.mem_cons_self
      · exact List.mem_cons_of_mem _ (ih hs)

/-- **When no code is taken.** In a text whose literals end on their lines, the lines of the banner
are blank in the masked copy just if none of them has code behind the closing mark of the comment
that it starts with or starts inside of. So are the lines that a search takes, if this holds of the
comments among them. -/
theorem taken_isBlank_iff {t : Text} (hliterals : LiteralsEnd t) {claimed indexes : List Nat}
    (hindexes : ∀ index ∈ indexes, index ≤ t.lines.length) :
    ((∀ i ∈ (bannerComments t.lines).claimed, isBlankLine (maskCode t).lines i = true) ↔
      ∀ i ∈ (bannerComments t.lines).claimed,
        codeOnly (behindComment (lineZone t i) (t.lines.getD i [])) = []) ∧
    ∀ s ∈ searches t.lines claimed indexes,
      ((∀ i, s.Takes t.lines i → isBlankLine (maskCode t).lines i = true) ↔
        ∀ first last, IsComment t.lines first last → s.first t.lines ≤ first → last < s.index →
          codeOnly (behindComment (lineZone t first) (linesBetween t first last)) = []) := by
  refine ⟨forall₂_congr fun i hi => ?_, fun s hs => ⟨fun h first last hcomment hfirst hlast => ?_,
    fun h i hi => ?_⟩⟩
  · obtain ⟨hlt, n, hspan, hn⟩ := lt_of_mem_bannerComments hi
    refine isBlankLine_masked_iff ?_ hlt
    exact atComment_bannerSpan hspan Bool.noConfusion hliterals
      (fun l hl => Text.newline_notMem_of_mem_lines hl) hn
  · have hlt := Nat.lt_of_lt_of_le hlast (hindexes _ (index_mem_of_mem_searches hs))
    refine (isBlank_masked_iff (hcomment.atComment hlt hliterals) hcomment.le hlt).mp ?_
    exact fun i hi hi' => h i ⟨Nat.le_trans hfirst hi, Nat.lt_of_le_of_lt hi' hlast⟩
  · have hindex := hindexes _ (index_mem_of_mem_searches hs)
    rcases (s.climbs_first t.lines).exists_comment hi.1 hi.2 with
      hblank | ⟨first, last, hcomment, hfirst, hle, hle', hlast⟩
    · exact isBlankLine_masked_of_isBlankLine hliterals (Nat.lt_of_lt_of_le hi.2 hindex) hblank
    · have hlt := Nat.lt_of_lt_of_le hlast hindex
      exact (isBlank_masked_iff (hcomment.atComment hlt hliterals) hcomment.le hlt).mpr
        (h first last hcomment hfirst hlast) i hle hle'

/-- Two comments without code behind them, and a blank line between them. -/
theorem taken_isBlank_twoComments :
    ∃ t : Text, t = "// a\n\n/* b\n */\nvoid f();" ∧ LiteralsEnd t ∧
      ∀ i, (⟨[], 4⟩ : CommentSearch).Takes t.lines i → isBlankLine (maskCode t).lines i = true := by
  have hliterals : LiteralsEnd "// a\n\n/* b\n */\nvoid f();" := by
    unfold LiteralsEnd
    decide
  have hiff := (taken_isBlank_iff hliterals (show ∀ index ∈ [4], index ≤ _ by decide)).2 ⟨[], 4⟩
    (List.mem_singleton.mpr rfl)
  refine ⟨_, rfl, hliterals, hiff.mpr fun first last hcomment _ hlast => ?_⟩
  have hclean : ∀ last < 4, ∀ first ≤ last,
      codeOnly (behindComment (lineZone "// a\n\n/* b\n */\nvoid f();" first)
        (linesBetween "// a\n\n/* b\n */\nvoid f();" first last)) = [] := by decide
  exact hclean last hlast first hcomment.le

/-- **Code is taken.** The line ends with a comment, and the line of its opening mark, which is the
same one, starts with a comment; it is not the same comment. -/
theorem not_forall_taken_isBlank :
    ¬∀ (t : Text) (claimed indexes : List Nat), (∀ index ∈ indexes, index ≤ t.lines.length) →
      ∀ s ∈ searches t.lines claimed indexes, ∀ i, s.Takes t.lines i →
        isBlankLine (maskCode t).lines i = true := by
  intro h
  have hblank := h "/* a */ int x; /* b */\nvoid f();" [] [1] (by decide) ⟨[], 1⟩
    (by simp [searches]) 0
  exact absurd (hblank ⟨by decide +kernel, by decide⟩) (by decide)

end Sharpen
