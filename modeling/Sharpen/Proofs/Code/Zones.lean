import Mathlib.Data.List.GetD
import Sharpen.Proofs.Code.CodeOnly
import Sharpen.Proofs.Code.StringLiteral
import Sharpen.Proofs.Header.Advance

/-!
# The Zones of Lines

A line of a program text may start in code, in a block comment or in a literal that has been
prolonged by a backslash. The masked copy of the line depends on this alone, and on nothing that
stands before or behind the line.

The lines of a text are its pieces between newlines, while the masking goes through the text without
regard to lines. The two are brought together here: the zone behind the lines before a line is all
that the masking of the line needs to know, and a newline ends every zone but that of a block
comment and that of a literal behind a backslash.

## Main definitions

* `zoneBehind` — the zone behind a text; `lineZone` the one that a line starts in.
* `linesBefore` — the lines before line `i`, with their newlines.
* `zoneBehindLine` — the zone behind a line with its newline.
* `linesBetween` — the lines from `first` to `last`, with a newline between them.
* `EndsLine` — a text with which a line ends: there is none, or it starts with a newline.

## Main results

* `maskFrom_append_newline` — a text is masked line by line.
* `isBlank_masked_lines_iff` — when some lines of a text are blank in the masked copy.
-/

namespace Sharpen

/-! ### Lines of a text -/

namespace Text

/-- Splitting a text gives one part at least. -/
theorem splitOn_ne_nil (sep : Char) (t : Text) : splitOn sep t ≠ [] := by
  induction t with
  | nil => simp [splitOn]
  | cons c r ih =>
      rw [splitOn]
      split
      · exact List.cons_ne_nil _ _
      · cases hr : splitOn sep r with
        | nil => exact absurd hr ih
        | cons => exact List.cons_ne_nil _ _

/-- A separator ends a part. -/
theorem splitOn_append_cons (sep : Char) (u r : Text) :
    splitOn sep (u ++ sep :: r) = splitOn sep u ++ splitOn sep r := by
  induction u with
  | nil => simp [splitOn]
  | cons c u ih =>
      simp only [List.cons_append, splitOn]
      rw [ih]
      split
      · rfl
      · obtain ⟨l, ls, hls⟩ := List.exists_cons_of_ne_nil (splitOn_ne_nil sep u)
        rw [hls]
        rfl

/-- Without separators there is one part. -/
theorem splitOn_eq_singleton {sep : Char} {l : Text} (hl : sep ∉ l) : splitOn sep l = [l] := by
  induction l with
  | nil => rfl
  | cons c l ih =>
      obtain ⟨hc, hl⟩ := not_or.mp (List.mem_cons.not.mp hl)
      rw [splitOn, if_neg (by simpa using Ne.symm hc), ih hl]
      rfl

/-- Parts with separators between them are parts. -/
theorem splitOn_join {sep : Char} {ls : List Text} (hne : ls ≠ []) (hls : ∀ l ∈ ls, sep ∉ l) :
    splitOn sep (join [sep] ls) = ls := by
  induction ls with
  | nil => exact absurd rfl hne
  | cons l ls ih =>
      obtain ⟨hl, hls⟩ := List.forall_mem_cons.mp hls
      cases ls with
      | nil => simpa [join] using splitOn_eq_singleton hl
      | cons k ks =>
          rw [join_cons_cons]
          refine (splitOn_append_cons sep l (join [sep] (k :: ks))).trans ?_
          rw [splitOn_eq_singleton hl, ih (List.cons_ne_nil _ _) hls]
          rfl

/-- A newline ends a line. -/
theorem lines_append_newline (u r : Text) : lines (u ++ '\n' :: r) = lines u ++ lines r :=
  splitOn_append_cons '\n' u r

/-- A text without newlines is one line. -/
theorem lines_eq_singleton {l : Text} (hl : '\n' ∉ l) : lines l = [l] :=
  splitOn_eq_singleton hl

/-- No line of a text has a newline. -/
theorem newline_notMem_of_mem_lines {t l : Text} (h : l ∈ t.lines) : '\n' ∉ l := by
  induction t generalizing l with
  | nil =>
      obtain rfl := List.mem_singleton.mp h
      exact List.not_mem_nil
  | cons c r ih =>
      rw [lines] at h ih
      rw [splitOn] at h
      split at h
      · rcases List.mem_cons.mp h with rfl | h
        · exact List.not_mem_nil
        · exact ih h
      · rename_i hc
        obtain ⟨k, ks, hks⟩ := List.exists_cons_of_ne_nil (splitOn_ne_nil '\n' r)
        rw [hks] at h ih
        rcases List.mem_cons.mp h with rfl | h
        · refine List.mem_cons.not.mpr (not_or.mpr ⟨?_, ih List.mem_cons_self⟩)
          rintro rfl
          exact hc rfl
        · exact ih (List.mem_cons_of_mem _ h)

/-- Lines with their newlines are lines. -/
theorem lines_flatMap_append {ls : List Text} (hls : ∀ l ∈ ls, '\n' ∉ l) (w : Text) :
    lines (ls.flatMap (· ++ ['\n']) ++ w) = ls ++ lines w := by
  induction ls with
  | nil => rfl
  | cons l ls ih =>
      obtain ⟨hl, hls⟩ := List.forall_mem_cons.mp hls
      rw [List.flatMap_cons, List.append_assoc, List.append_assoc, List.singleton_append,
        lines_append_newline, lines_eq_singleton hl, ih hls]
      rfl

/-- Lines with a newline between them are lines. -/
theorem lines_join {ls : List Text} (hne : ls ≠ []) (hls : ∀ l ∈ ls, '\n' ∉ l) :
    lines (join "\n" ls) = ls :=
  splitOn_join hne hls

/-- The lines of a text make it up. -/
theorem join_lines (t : Text) : join "\n" t.lines = t := by
  induction t with
  | nil => rfl
  | cons c r ih =>
      rw [lines] at ih ⊢
      rw [splitOn]
      split
      · rename_i hc
        rw [join_cons_of_ne (splitOn_ne_nil _ _), ih, beq_iff_eq.mp hc]
        rfl
      · rw [join_consHead c (splitOn_ne_nil _ _), ih]

/-- They determine it. -/
theorem eq_of_lines_eq {t u : Text} (h : t.lines = u.lines) : t = u := by
  rw [← join_lines t, h, join_lines]

/-- The solid characters of a text are on its lines. -/
theorem solid_eq_nil_iff_lines {t : Text} : t.solid = [] ↔ ∀ l ∈ t.lines, l.isBlank = true := by
  induction t with
  | nil => simp [lines, splitOn, isBlank]
  | cons c r ih =>
      rw [lines] at ih ⊢
      rw [splitOn]
      split
      · rename_i hc
        rw [beq_iff_eq.mp hc, solid_cons_of_blank rfl, ih]
        simp [isBlank]
      · obtain ⟨l, ls, hls⟩ := List.exists_cons_of_ne_nil (splitOn_ne_nil '\n' r)
        rw [hls] at ih ⊢
        rw [consHead, solid_cons, List.append_eq_nil_iff, ih]
        simp [isBlank, solid, and_assoc]

end Text

/-! ### Zones -/

/-- The zone behind a text that starts in a zone, if a line ends there. -/
def zoneBehind : Zone → Text → Zone
  | z, [] => z
  | .code, '/' :: '/' :: r => zoneBehind .lineComment r
  | .code, '/' :: '*' :: r => zoneBehind .blockComment r
  | .code, c :: r => zoneBehind (if isQuote c then .literal c else .code) r
  | .lineComment, c :: r => zoneBehind (if c == '\n' then .code else .lineComment) r
  | .blockComment, '*' :: '/' :: r => zoneBehind .code r
  | .blockComment, _ :: r => zoneBehind .blockComment r
  | .literal q, c :: r => zoneBehind (zoneInLiteral q c) r
  | .escaped q, _ :: r => zoneBehind (.literal q) r

/-- A character of the code that opens no comment leads into a literal or leaves the code. -/
theorem zoneBehind_code_cons_of_opens {c : Char} {r : Text} (h : opensComment c r = false) :
    zoneBehind .code (c :: r) = zoneBehind (if isQuote c then .literal c else .code) r := by
  rw [zoneBehind]
  · rintro r rfl rfl
    cases h
  · rintro r rfl rfl
    cases h

/-- A character opens no comment where neither of the two marks stands. -/
theorem opensComment_eq_false {c : Char} {u : Text} (hline : ∀ r, c = '/' → u = '/' :: r → False)
    (hblock : ∀ r, c = '/' → u = '*' :: r → False) : opensComment c u = false := by
  simp only [opensComment, Bool.and_eq_false_imp, beq_iff_eq, Bool.or_eq_false_iff,
    beq_eq_false_iff_ne, ne_eq]
  rintro rfl
  constructor
  · intro hhead
    obtain ⟨v, rfl⟩ := List.head?_eq_some_iff.mp hhead
    exact hline v rfl rfl
  · intro hhead
    obtain ⟨v, rfl⟩ := List.head?_eq_some_iff.mp hhead
    exact hblock v rfl rfl

/-- A mark does not go over the end of a line. -/
theorem opensComment_append_newline {c : Char} {u : Text} (h : opensComment c u = false)
    (r : Text) :
    opensComment c (u ++ '\n' :: r) = false := by
  cases u with
  | nil => simp [opensComment]
  | cons d u => exact h

/-- Nor does the one that closes a comment. -/
theorem ne_closing_append_newline {c : Char} {u : Text}
    (h : ∀ r, c = '*' → u = '/' :: r → False) (r : Text) :
    ∀ r', c = '*' → u ++ '\n' :: r = '/' :: r' → False := by
  rintro r' hc heq
  cases u with
  | nil => exact absurd (List.cons.inj heq).1 (by decide)
  | cons d u =>
      obtain ⟨rfl, -⟩ := List.cons.inj heq
      exact h u hc rfl

/-- **A text is masked line by line.** -/
theorem maskFrom_append_newline (z : Zone) (u r : Text) :
    maskFrom z (u ++ '\n' :: r) =
      maskFrom z (u ++ ['\n']) ++ maskFrom (zoneBehind z (u ++ ['\n'])) r := by
  fun_induction zoneBehind z u with
  | case1 z =>
      cases z with
      | code => rfl
      | lineComment => rfl
      | blockComment => rfl
      | literal q => cases r <;> simp [maskFrom, zoneBehind, zoneInLiteral]
      | escaped q => cases r <;> simp [maskFrom, zoneBehind, hide]
  | case2 u ih => simp only [List.cons_append, maskFrom, zoneBehind, ih]
  | case3 u ih => simp only [List.cons_append, maskFrom, zoneBehind, ih]
  | case4 c u hline hblock ih =>
      have happend := opensComment_append_newline (opensComment_eq_false hline hblock)
      rw [List.cons_append, List.cons_append, maskFrom_code_cons_of_opens (happend r),
        maskFrom_code_cons_of_opens (happend []), zoneBehind_code_cons_of_opens (happend []), ih,
        List.cons_append]
  | case5 c u ih => simp only [List.cons_append, maskFrom, zoneBehind, ih]
  | case6 u ih => simp only [List.cons_append, maskFrom, zoneBehind, ih]
  | case7 c u hmark ih =>
      have happend := ne_closing_append_newline hmark
      rw [List.cons_append, List.cons_append, maskFrom, maskFrom, zoneBehind, ih, List.cons_append]
      exacts [happend [], happend [], happend r]
  | case8 q c u ih =>
      rw [List.cons_append, List.cons_append, maskFrom_literal_cons_of_ne (by simp),
        maskFrom_literal_cons_of_ne (by simp), zoneBehind, ih, List.cons_append]
  | case9 q c u ih =>
      rw [List.cons_append, List.cons_append, maskFrom_escaped_cons_of_ne (by simp),
        maskFrom_escaped_cons_of_ne (by simp), zoneBehind, ih, List.cons_append]

/-! ### The masked copy of some lines -/

/-- The lines before line `i`, with their newlines. -/
def linesBefore (t : Text) (i : Nat) : Text :=
  (t.lines.take i).flatMap (· ++ ['\n'])

/-- The zone behind a line with its newline. -/
def zoneBehindLine (z : Zone) (l : Text) : Zone :=
  zoneBehind z (l ++ ['\n'])

/-- **The zone that line `i` starts in.** -/
def lineZone (t : Text) (i : Nat) : Zone :=
  (t.lines.take i).foldl zoneBehindLine .code

/-- The lines from `first` to `last`, with a newline between them. -/
def linesBetween (t : Text) (first last : Nat) : Text :=
  Text.join "\n" ((t.lines.take (last + 1)).drop first)

/-- A text with which a line ends: there is none, or it starts with a newline. -/
def EndsLine (r : Text) : Prop :=
  r = [] ∨ ∃ u, r = '\n' :: u

/-- Behind the end of a line other lines follow. -/
theorem EndsLine.exists_lines_append {r : Text} (h : EndsLine r) (u : Text) :
    ∃ ls, Text.lines (u ++ r) = u.lines ++ ls := by
  rcases h with rfl | ⟨v, rfl⟩
  · exact ⟨[], by simp⟩
  · exact ⟨Text.lines v, Text.lines_append_newline u v⟩

section

variable {t : Text} {first last : Nat}

/-- No line among the first of a text has a newline. -/
theorem newline_notMem_of_mem_take {l : Text} {n : Nat} (h : l ∈ t.lines.take n) : '\n' ∉ l :=
  Text.newline_notMem_of_mem_lines (List.mem_of_mem_take h)

/-- The lines between two. -/
theorem lines_linesBetween (hle : first ≤ last) (hlt : last < t.lines.length) :
    (linesBetween t first last).lines = (t.lines.take (last + 1)).drop first := by
  refine Text.lines_join ?_ fun l hl => newline_notMem_of_mem_take (List.mem_of_mem_drop hl)
  rw [← List.length_pos_iff, List.length_drop, List.length_take]
  omega

/-- A text is cut before and behind some of its lines. -/
theorem exists_eq_linesBefore_append (hle : first ≤ last) (hlt : last < t.lines.length) :
    ∃ r, EndsLine r ∧ t = linesBefore t first ++ (linesBetween t first last ++ r) := by
  have hbetween := lines_linesBetween hle hlt
  have hlines : t.lines.take first ++
      ((t.lines.take (last + 1)).drop first ++ t.lines.drop (last + 1))
      = t.lines := by
    rw [← List.append_assoc, ← Nat.min_eq_left (Nat.le_succ_of_le hle), ← List.take_take,
      Nat.min_eq_left (Nat.le_succ_of_le hle), List.take_append_drop, List.take_append_drop]
  have hfront : ∀ l ∈ t.lines.take first, '\n' ∉ l := fun l hl => newline_notMem_of_mem_take hl
  have hbefore := Text.lines_flatMap_append hfront
  by_cases hrest : t.lines.drop (last + 1) = []
  · refine ⟨[], Or.inl rfl, Text.eq_of_lines_eq ?_⟩
    rw [hrest, List.append_nil] at hlines
    rw [linesBefore, hbefore, List.append_nil, hbetween, hlines]
  · refine ⟨'\n' :: Text.join "\n" (t.lines.drop (last + 1)), Or.inr ⟨_, rfl⟩,
      Text.eq_of_lines_eq ?_⟩
    rw [linesBefore, hbefore, Text.lines_append_newline, hbetween, Text.lines_join hrest, hlines]
    exact fun l hl => Text.newline_notMem_of_mem_lines (List.mem_of_mem_drop hl)

/-- Lines are masked, and what follows them starts in the zone behind them. -/
theorem maskFrom_flatMap_append (z : Zone) (ls : List Text) (r : Text) :
    maskFrom z (ls.flatMap (· ++ ['\n']) ++ r) =
      maskFrom z (ls.flatMap (· ++ ['\n'])) ++ maskFrom (ls.foldl zoneBehindLine z) r := by
  induction ls generalizing z with
  | nil => cases z <;> simp [maskFrom]
  | cons l ls ih =>
      have hline : ∀ u, (l :: ls).flatMap (· ++ ['\n']) ++ u
          = l ++ '\n' :: (ls.flatMap (· ++ ['\n']) ++ u) := by simp
      have hlast := hline []
      rw [List.append_nil, List.append_nil] at hlast
      rw [hline, hlast, maskFrom_append_newline z l (_ ++ r),
        maskFrom_append_newline z l (List.flatMap _ _), ← zoneBehindLine, ih, List.append_assoc,
        List.foldl_cons]

/-- Texts with newlines at the same places have as many. -/
theorem count_newline_of_map {u v : Text} (h : u.map (· == '\n') = v.map (· == '\n')) :
    u.count '\n' = v.count '\n' := by
  have hcount : ∀ w : Text, w.count '\n' = (w.map (· == '\n')).count true := by
    intro w
    simp [List.count, List.countP_map, Function.comp_def]
  rw [hcount, hcount, h]

/-- Whether a line ends is seen from the newlines. -/
theorem EndsLine.of_map_newline {r u : Text} (hr : EndsLine r)
    (h : u.map (· == '\n') = r.map (· == '\n')) : EndsLine u := by
  rcases hr with rfl | ⟨v, rfl⟩
  · exact Or.inl (by simpa using h)
  · rw [List.map_cons] at h
    obtain ⟨c, w, rfl, hc, -⟩ := List.map_eq_cons_iff.mp h
    exact Or.inr ⟨w, by rw [beq_iff_eq.mp hc]⟩

/-- The masked copy of some lines has as many lines. -/
theorem exists_lines_maskFrom_append (z : Zone) {ls : List Text} (hls : ∀ l ∈ ls, '\n' ∉ l)
    (w : Text) :
    ∃ ks, ks.length = ls.length ∧
      Text.lines (maskFrom z (ls.flatMap (· ++ ['\n'])) ++ w) = ks ++ Text.lines w := by
  have hcount : (ls.flatMap (· ++ ['\n'])).count '\n' = ls.length := by
    have hlines := congrArg List.length (Text.lines_flatMap_append hls [])
    rw [List.append_nil, Text.length_lines] at hlines
    simpa [Text.lines, Text.splitOn] using hlines
  rcases ls.eq_nil_or_concat' with rfl | ⟨front, l, rfl⟩
  · exact ⟨[], rfl, by cases z <;> simp [maskFrom]⟩
  · set text := (front ++ [l]).flatMap (· ++ ['\n']) with htext
    have hline : text = front.flatMap (· ++ ['\n']) ++ l ++ ['\n'] := by simp [htext]
    obtain ⟨masked, newline, hmask, -, hnewline⟩ :=
      List.map_eq_append_iff.mp ((map_newline_maskFrom z text).trans
        ((congrArg _ hline).trans List.map_append))
    obtain ⟨c, rfl, hc⟩ := List.map_eq_singleton_iff.mp hnewline
    obtain rfl : c = '\n' := beq_iff_eq.mp hc
    refine ⟨Text.lines masked, ?_, ?_⟩
    · rw [← hcount, ← count_newline_of_map (map_newline_maskFrom z text), hmask, Text.length_lines]
      simp
    · rw [hmask, List.append_assoc, List.singleton_append, Text.lines_append_newline]

/-- **When some lines are blank in the masked copy**: they are a part of the text that is masked
from the zone of the first one on, and this part has nothing solid. -/
theorem isBlank_masked_lines_iff (hle : first ≤ last) (hlt : last < t.lines.length) :
    ∃ r, EndsLine r ∧ t = linesBefore t first ++ (linesBetween t first last ++ r) ∧
      ((∀ i, first ≤ i → i ≤ last → ((maskCode t).lines.getD i []).isBlank = true) ↔
        Text.solid ((maskFrom (lineZone t first) (linesBetween t first last ++ r)).take
          (linesBetween t first last).length) = []) := by
  obtain ⟨r, hr, ht⟩ := exists_eq_linesBefore_append hle hlt
  refine ⟨r, hr, ht, ?_⟩
  set between := linesBetween t first last with hbetween
  set masked := maskFrom (lineZone t first) (between ++ r) with hmasked
  set shown := masked.take between.length with hshown
  have hnewline := map_newline_maskFrom (lineZone t first) (between ++ r)
  have hrest : EndsLine (masked.drop between.length) := by
    refine hr.of_map_newline ?_
    rw [List.map_drop, hmasked, hnewline, List.map_append, List.drop_left' (by simp)]
  have hbefore : ∀ l ∈ t.lines.take first, '\n' ∉ l := fun l hl => newline_notMem_of_mem_take hl
  obtain ⟨ks, hlength, hfront⟩ := exists_lines_maskFrom_append .code hbefore masked
  obtain ⟨rest, hlines⟩ := hrest.exists_lines_append shown
  have hmask : (maskCode t).lines = ks ++ (Text.lines shown ++ rest) := by
    rw [← hlines, List.take_append_drop, ← hfront]
    conv_lhs => rw [ht, maskCode, linesBefore, maskFrom_flatMap_append]
    rfl
  have hshownLength : (Text.lines shown).length = last + 1 - first := by
    have hsame : shown.map (· == '\n') = between.map (· == '\n') := by
      rw [hshown, List.map_take, hmasked, hnewline, List.map_append, List.take_left' (by simp)]
    rw [Text.length_lines, count_newline_of_map hsame, ← Text.length_lines, hbetween,
      lines_linesBetween hle hlt, List.length_drop, List.length_take, Nat.min_eq_left hlt]
  have hget : ∀ k, k < (Text.lines shown).length →
      (maskCode t).lines.getD (first + k) [] = (Text.lines shown).getD k [] := by
    intro k hk
    have hfirst : ks.length = first := by
      rw [hlength, List.length_take, Nat.min_eq_left (by omega)]
    rw [hmask, List.getD_append_right _ _ _ _ (by omega), List.getD_append _ _ _ _ (by omega)]
    congr 1
    omega
  rw [Text.solid_eq_nil_iff_lines]
  constructor
  · intro h l hl
    obtain ⟨k, hk, rfl⟩ := List.getElem_of_mem hl
    rw [← List.getD_eq_getElem _ [] hk, ← hget k hk]
    exact h (first + k) (by omega) (by omega)
  · intro h i hi hi'
    obtain ⟨k, rfl⟩ := Nat.exists_eq_add_of_le hi
    have hk : k < (Text.lines shown).length := by omega
    rw [hget k hk, List.getD_eq_getElem _ _ hk]
    exact h _ (List.getElem_mem hk)

end

end Sharpen
