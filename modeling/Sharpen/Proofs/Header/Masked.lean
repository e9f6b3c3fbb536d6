import Mathlib.Data.List.Basic
import Sharpen.Proofs.Header.Places

/-!
# What the Masked Copy Shows

The masked copy of a text has its newlines and its code, and blanks for everything else. So the
lines of a text can be read from it, and a comment behind a declaration cannot be told from blanks.

The masked copy has the length and the newlines of the text, so that the end of a line is the same
in both. A semicolon that it shows is one of the code, and behind it the masking goes on as at the
start of a text. Comments that start there are hidden up to the end of their line or to their
closing mark.

## Main results

* `Page.lineEnd_eq_masked`, `Page.slice_lineEndWithin` — the lines of a page.
* `maskFrom_semicolon` — a semicolon of the masked copy is one of the code.
* `Page.isBlank_trailingComment` — a comment behind a declaration is blank there.
-/

namespace Sharpen

/-! ### Masking -/

/-- Masking leaves every newline where it is and makes none. -/
theorem map_newline_maskFrom (z : Zone) (t : Text) :
    (maskFrom z t).map (· == '\n') = t.map (· == '\n') := by
  have hhide : ∀ c, (hide c == '\n') = (c == '\n') := by
    intro c
    rw [hide]
    split <;> simp_all
  fun_induction maskFrom z t <;> simp_all

/-- What is hidden is blank. -/
theorem isBlank_hide (c : Char) : isBlank (hide c) = true := by
  rw [hide]
  split <;> rfl

/-- What is hidden ends no statement. -/
theorem hide_ne_semicolon (c : Char) : hide c ≠ ';' := by
  rw [hide]
  split <;> decide

/-- A character of the code that opens no comment and no literal. -/
theorem maskFrom_code_cons {c : Char} (hslash : c ≠ '/') (hquote : isQuote c = false) (r : Text) :
    maskFrom .code (c :: r) = c :: maskFrom .code r := by
  rw [maskFrom]
  · rw [if_neg (by simp [hquote])]
  · exact fun _ h => absurd h hslash
  · exact fun _ h => absurd h hslash

/-- Blanks of the code. -/
theorem maskFrom_code_blanks {b : Text} (h : b.isBlank) (r : Text) :
    maskFrom .code (b ++ r) = b ++ maskFrom .code r := by
  induction b with
  | nil => rfl
  | cons c b ih =>
      simp only [Text.isBlank, List.all_cons, Bool.and_eq_true] at h
      have hslash : c ≠ '/' := by
        rintro rfl
        exact absurd h.1 (by decide)
      have hquote : isQuote c = false := by
        rw [Bool.eq_false_iff]
        intro hq
        rcases (by simpa [isQuote] using hq : c = '"' ∨ c = '\'') with rfl | rfl
        · exact absurd h.1 (by decide)
        · exact absurd h.1 (by decide)
      rw [List.cons_append, maskFrom_code_cons hslash hquote, ih h.2, List.cons_append]

/-- A semicolon of the masked copy is one of the text, and behind it the text goes on as code,
unless it ends there. -/
theorem maskFrom_semicolon {z : Zone} {t : Text} {i : Nat}
    (h : (maskFrom z t)[i]? = some ';') :
    t[i]? = some ';' ∧
      (i + 1 = t.length ∨ (maskFrom z t).drop (i + 1) = maskFrom .code (t.drop (i + 1))) := by
  fun_induction maskFrom z t generalizing i with
  | case1 => simp at h
  | case2 r ih =>
      rcases i with _ | _ | i
      · simp at h
      · simp at h
      · simpa using ih (by simpa using h)
  | case3 r ih =>
      rcases i with _ | _ | i
      · simp at h
      · simp at h
      · simpa using ih (by simpa using h)
  | case4 c r _ _ ih =>
      rcases i with _ | i
      · obtain rfl : c = ';' := by simpa using h
        exact ⟨rfl, Or.inr rfl⟩
      · simpa using ih (by simpa using h)
  | case5 c r ih =>
      rcases i with _ | i
      · exact absurd (by simpa using h) (hide_ne_semicolon c)
      · simpa using ih (by simpa using h)
  | case6 r ih =>
      rcases i with _ | _ | i
      · simp at h
      · simp at h
      · simpa using ih (by simpa using h)
  | case7 c r _ ih =>
      rcases i with _ | i
      · exact absurd (by simpa using h) (hide_ne_semicolon c)
      · simpa using ih (by simpa using h)
  | case8 q c =>
      rcases i with _ | i
      · exact ⟨h, Or.inl rfl⟩
      · simp at h
  | case9 q c =>
      rcases i with _ | i
      · exact ⟨h, Or.inl rfl⟩
      · simp at h
  | case10 q c r _ hc ih =>
      rcases i with _ | i
      · exact ⟨by simpa using h, Or.inr rfl⟩
      · simpa using ih (by simpa using h)
  | case11 q c r _ hc ih =>
      rcases i with _ | i
      · simp at h
      · simpa using ih (by simpa using h)
  | case12 q c r _ ih =>
      rcases i with _ | i
      · exact absurd (by simpa using h) (hide_ne_semicolon c)
      · simpa using ih (by simpa using h)

/-- A comment up to the end of its line is blank in the masked copy. -/
theorem isBlank_take_lineComment {l : Text} (h : '\n' ∉ l) (r : Text) :
    Text.isBlank ((maskFrom .lineComment (l ++ r)).take l.length) = true := by
  induction l with
  | nil => rfl
  | cons c l ih =>
      obtain ⟨hc, hl⟩ := not_or.mp (List.mem_cons.not.mp h)
      have hline : (c == '\n') = false := by simpa using Ne.symm hc
      rw [List.cons_append, maskFrom, hline, List.length_cons, List.take_succ_cons]
      simpa [Text.isBlank, isBlank_hide] using ih hl

/-- A comment up to its closing mark is blank in the masked copy. -/
theorem isBlank_take_blockComment (r : Text) :
    Text.isBlank ((maskFrom .blockComment r).take
      (((Text.find? "*/" r).map (· + 2)).getD r.length)) = true := by
  induction r with
  | nil => rfl
  | cons c r ih =>
      by_cases hclose : List.isPrefixOf "*/".toList (c :: r) = true
      · obtain ⟨rest, hrest⟩ := List.isPrefixOf_iff_prefix.mp hclose
        obtain ⟨rfl, rfl⟩ : '*' = c ∧ '/' :: rest = r := by simpa using hrest
        rw [Text.find?, if_pos hclose, maskFrom]
        rfl
      · rw [Text.find?, if_neg hclose, maskFrom]
        · have hlength : (((Text.find? "*/" r).map (· + 1)).map (· + 2)).getD (c :: r).length
              = (((Text.find? "*/" r).map (· + 2)).getD r.length) + 1 := by
            cases Text.find? "*/" r <;> simp
          rw [hlength, List.take_succ_cons]
          simpa [Text.isBlank, isBlank_hide] using ih
        · rintro r' rfl rfl
          exact hclose rfl

/-- Two hidden characters behind blanks prolong what is blank. -/
theorem isBlank_take_behind {b u : Text} {n : Nat} (hb : b.isBlank = true)
    (hu : Text.isBlank (u.take n) = true) :
    Text.isBlank ((b ++ ' ' :: ' ' :: u).take (b.length + (n + 2))) = true := by
  rw [List.take_length_add_append]
  simp_all [Text.isBlank, show isBlank ' ' = true from rfl]

/-- Blanks and a comment up to the end of its line are blank in the masked copy of a code. -/
theorem isBlank_take_of_lineComment {b l : Text} (hb : b.isBlank = true) (hl : '\n' ∉ l)
    (r : Text) :
    Text.isBlank ((maskFrom .code (b ++ '/' :: '/' :: (l ++ r))).take
      (b.length + (l.length + 2))) = true := by
  rw [maskFrom_code_blanks hb, maskFrom]
  exact isBlank_take_behind hb (isBlank_take_lineComment hl r)

/-- So are blanks and a comment up to its closing mark. -/
theorem isBlank_take_of_blockComment {b : Text} (hb : b.isBlank = true) (r : Text) :
    Text.isBlank ((maskFrom .code (b ++ '/' :: '*' :: r)).take
      (b.length + (((Text.find? "*/" r).map (· + 2)).getD r.length + 2))) = true := by
  rw [maskFrom_code_blanks hb, maskFrom]
  exact isBlank_take_behind hb (isBlank_take_blockComment r)

/-! ### Lines -/

/-- The line that a text starts with. -/
def Text.firstLine (t : Text) : Text :=
  t.takeWhile (· != '\n')

/-- A character that is no newline is on the first line. -/
theorem Text.firstLine_cons {c : Char} (hc : c ≠ '\n') (r : Text) :
    Text.firstLine (c :: r) = c :: Text.firstLine r := by
  simp [Text.firstLine, hc]

/-- The rest of a line, from position `i` on and before `limit`. -/
theorem Text.slice_line (t : Text) (i limit : Nat) :
    t.slice i (min ((Text.findChar? t '\n' i).getD t.length) limit)
      = (t.slice i limit).firstLine := by
  by_cases hi : i ≤ t.length
  · have hend : (Text.findChar? t '\n' i).getD t.length = i + (t.drop i).findIdx (· == '\n') := by
      rw [Text.findChar?, List.findIdx_eq_getD_findIdx?]
      cases (t.drop i).findIdx? (· == '\n') with
      | none =>
          simp only [Option.map_none, Option.getD_none, List.length_drop]
          omega
      | some k => simp [Nat.add_comm]
    have hnot : (fun c : Char => !(c != '\n')) = (· == '\n') := by
      funext c
      simp [bne]
    rw [hend, Text.firstLine, Text.slice, Text.slice, List.drop_take, List.drop_take,
      List.takeWhile_eq_take_findIdx_not, hnot, List.findIdx_take, List.take_take]
    congr 1
    omega
  · rw [Text.slice_eq_nil (by omega), Text.slice_eq_nil (by omega)]
    rfl

namespace Page

variable {page : Page}

/-- The masked copy is as long as the text. -/
theorem length_masked (hmask : page.masked = maskCode page.text) :
    page.masked.length = page.text.length := by
  rw [hmask, length_maskCode]

/-- The masked copy shows where a line ends. -/
theorem lineEnd_eq_masked (hmask : page.masked = maskCode page.text) (i : Nat) :
    page.lineEnd i = (Text.findChar? page.masked '\n' i).getD page.masked.length := by
  have hfind : ∀ t : Text, t.findIdx? (· == '\n') = (t.map (· == '\n')).findIdx? id := by
    intro t
    rw [List.findIdx?_map]
    rfl
  rw [lineEnd, Text.findChar?, Text.findChar?, hmask, length_maskCode, hfind, hfind,
    List.map_drop, List.map_drop, maskCode, map_newline_maskFrom]

/-- A line of the masked copy. -/
theorem slice_lineEndWithin (hmask : page.masked = maskCode page.text) (i limit : Nat) :
    page.masked.slice i (page.lineEndWithin i limit) = (page.masked.slice i limit).firstLine := by
  rw [lineEndWithin, lineEnd_eq_masked hmask, Text.slice_line]

/-- A line of the text. -/
theorem slice_lineEnd (page : Page) (i : Nat) :
    page.text.slice i (page.lineEnd i) = Text.firstLine (page.text.drop i) := by
  have hline := Text.slice_line page.text i page.text.length
  rw [show min ((Text.findChar? page.text '\n' i).getD page.text.length) page.text.length
    = page.lineEnd i from Nat.min_eq_left (page.lineEnd_le i)] at hline
  rw [hline, Text.slice, List.take_length]

/-- Where a block comment ends that starts behind the blanks `b`, counted from these. -/
theorem blockComment_stop (page : Page) {i : Nat} {b r : Text}
    (h : page.text.drop i = b ++ '/' :: '*' :: r) :
    ((Text.findFrom? page.text "*/" (i + b.length + 2)).map (· + 2)).getD page.text.length - i
      = b.length + (((Text.find? "*/" r).map (· + 2)).getD r.length + 2) := by
  have hdrop : page.text.drop (i + b.length + 2) = r := by
    rw [Nat.add_assoc, ← List.drop_drop, h, ← List.drop_drop, List.drop_left]
    rfl
  have hlength := congrArg List.length h
  simp only [List.length_drop, List.length_append, List.length_cons] at hlength
  rw [Text.findFrom?, hdrop]
  cases Text.find? "*/" r with
  | none =>
      simp only [Option.map_none, Option.getD_none]
      omega
  | some k =>
      simp only [Option.map_some, Option.getD_some]
      omega

/-- **A comment behind a declaration is blank in the masked copy.** The rest of the line is blanks,
then what may be a comment, and then come other lines. -/
theorem isBlank_trailingComment (hmask : page.masked = maskCode page.text) {semicolon : Nat}
    (h : page.masked[semicolon]? = some ';') :
    Text.isBlank (page.masked.slice (semicolon + 1)
      (trailingComment page (semicolon + 1)).stop) = true := by
  rw [hmask] at h ⊢
  obtain ⟨-, hend | hcode⟩ := maskFrom_semicolon h
  · rw [Text.slice_eq_nil (by rw [length_maskCode]; omega)]
    rfl
  generalize semicolon + 1 = i at hcode ⊢
  rw [Text.slice, List.drop_take, maskCode, hcode]
  have hrest := page.slice_lineEnd i
  simp only [trailingComment, hrest]
  generalize htext : page.text.drop i = t
  generalize hline : Text.firstLine t = line
  have hnewline : '\n' ∉ line := by
    intro hmem
    rw [← hline] at hmem
    simpa using List.all_eq_true.mp (List.all_takeWhile (p := (· != '\n')) (l := t)) _ hmem
  obtain ⟨below, hbelow⟩ : ∃ below, line ++ below = t :=
    ⟨_, by rw [← hline]; exact List.takeWhile_append_dropWhile⟩
  obtain ⟨b, hb, hsplit⟩ : ∃ b : Text, b.isBlank = true ∧ b ++ Text.trimStart line = line :=
    ⟨line.takeWhile isBlank, List.all_takeWhile, List.takeWhile_append_dropWhile⟩
  have hlength : line.length - (Text.trimStart line).length = b.length := by
    have := congrArg List.length hsplit
    rw [List.length_append] at this
    omega
  have hcount : page.lineEnd i - i = line.length := by
    have := congrArg List.length hrest
    rw [htext, hline, Text.slice, List.length_drop, List.length_take] at this
    have := page.lineEnd_le i
    omega
  split
  · rename_i hslashes
    obtain ⟨l, hl⟩ := List.isPrefixOf_iff_prefix.mp hslashes
    have hl : Text.trimStart line = '/' :: '/' :: l := hl.symm
    rw [hl] at hsplit
    have hl' : '\n' ∉ l := fun hmem => hnewline (by simp [← hsplit, hmem])
    dsimp only
    rw [hcount, ← hbelow, ← hsplit, List.append_assoc, List.cons_append, List.cons_append,
      List.length_append]
    exact isBlank_take_of_lineComment hb hl' below
  split
  · rename_i hopening
    obtain ⟨l, hl⟩ := List.isPrefixOf_iff_prefix.mp hopening
    have hl : Text.trimStart line = '/' :: '*' :: l := hl.symm
    rw [hl] at hsplit hlength
    have ht : t = b ++ '/' :: '*' :: (l ++ below) := by
      rw [← hbelow, ← hsplit]
      simp
    dsimp only
    rw [hl, hlength, page.blockComment_stop (htext.trans ht), ht]
    exact isBlank_take_of_blockComment hb _
  · simp [Text.isBlank]

end Page

end Sharpen
