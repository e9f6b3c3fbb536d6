import Sharpen.Proofs.Decl.Separator
import Sharpen.Proofs.Header.Masked
import Sharpen.Proofs.Text.Solid

/-!
# Code Without Comments and Spacing

The code of a text is what is neither blank nor inside of a comment or of a literal. A text is
**sealed** if it has no comments, ends its literals and does not end with a slash. Behind a sealed
text everything is masked as on its own, and so it is behind a comment that ends. So the code of a
text that is put together from sealed texts and comments is that of the sealed texts.

A slash at the end of a text is left out because it may be half of a mark that the text behind
completes. With it excluded, the state in which the masking arrives behind a sealed text is that of
code, whatever follows. This is proved along the recursion of the masking, with one case for each
zone, and the statements about code then follow by dropping the blanks of the masked copy.

## Main definitions

* `codeOnly` — the code of a text.
* `isSealedFrom` — whether a text, reached in the given zone, has no comment, ends its literals and
  does not end with a slash.
* `isSealed` — whether a text on its own is sealed.

## Main results

* `codeOnly_append` — a sealed text comes before the code of what follows it.
* `codeOnly_lineComment`, `codeOnly_blockComment` — comments come before it without a trace.
* `maskFrom_append_of_isSealedFrom` — behind a sealed text everything is masked as on its own.
-/

namespace Sharpen

/-! ### Sealed texts -/

/-- The zone behind a character inside of a literal. -/
def zoneInLiteral (q c : Char) : Zone :=
  if c == q || c == '\n' then .code else if c == '\\' then .escaped q else .literal q

/-- Whether a text, reached in the given zone, has no comment, ends its literals and does not end
with a slash. -/
def isSealedFrom : Zone → Text → Bool
  | .code, [] => true
  | .code, c :: r =>
    !opensComment c r && !(c == '/' && r.isEmpty) &&
      isSealedFrom (if isQuote c then .literal c else .code) r
  | .literal q, c :: r => isSealedFrom (zoneInLiteral q c) r
  | .escaped q, _ :: r => isSealedFrom (.literal q) r
  | _, _ => false

/-- Whether a text on its own is sealed. -/
def isSealed (t : Text) : Bool :=
  isSealedFrom .code t

/-- The end of a text that does not end with a slash completes no mark. -/
theorem opensComment_append_of_ne {c : Char} {r : Text} (h : opensComment c r = false)
    (hend : ¬ (c = '/' ∧ r = [])) (u : Text) : opensComment c (r ++ u) = false := by
  cases r with
  | cons _ _ => exact h
  | nil =>
      have hc : c ≠ '/' := fun hc => hend ⟨hc, rfl⟩
      simp [opensComment, hc]

/-- A character that opens no comment is shown, and a quote opens a literal. -/
theorem maskFrom_code_cons_of_opens {c : Char} {r : Text} (h : opensComment c r = false) :
    maskFrom .code (c :: r) = c :: maskFrom (if isQuote c then .literal c else .code) r := by
  rw [maskFrom]
  · rintro r rfl rfl
    cases h
  · rintro r rfl rfl
    cases h

/-- A character inside of a literal, with something behind it. -/
theorem maskFrom_literal_cons_of_ne {q c : Char} {r : Text} (hr : r ≠ []) :
    maskFrom (.literal q) (c :: r)
      = (if c == q || c == '\n' then c else ' ') :: maskFrom (zoneInLiteral q c) r := by
  obtain ⟨d, r, rfl⟩ := List.exists_cons_of_ne_nil hr
  rw [maskFrom, zoneInLiteral]
  · split_ifs <;> rfl
  · simp

/-- A character behind a backslash, with something behind it. -/
theorem maskFrom_escaped_cons_of_ne {q c : Char} {r : Text} (hr : r ≠ []) :
    maskFrom (.escaped q) (c :: r) = hide c :: maskFrom (.literal q) r := by
  obtain ⟨d, r, rfl⟩ := List.exists_cons_of_ne_nil hr
  simp [maskFrom]

/-- **Behind a sealed text everything is masked as on its own.** A literal ends in it, or else it
would be open at the end. -/
theorem maskFrom_append_of_isSealedFrom {z : Zone} {t : Text} (h : isSealedFrom z t = true)
    (u : Text) : maskFrom z (t ++ u) = maskFrom z t ++ maskFrom .code u := by
  fun_induction isSealedFrom z t with
  | case1 => rfl
  | case2 c r ih =>
      simp only [Bool.and_eq_true, Bool.not_eq_true', Bool.and_eq_false_imp, beq_iff_eq] at h
      obtain ⟨⟨hopens, hend⟩, hr⟩ := h
      have hopens' : opensComment c (r ++ u) = false :=
        opensComment_append_of_ne hopens (fun ⟨hc, hnil⟩ => by simp [hnil] at hend; exact hend hc) u
      rw [List.cons_append, maskFrom_code_cons_of_opens hopens', maskFrom_code_cons_of_opens hopens,
        ih hr, List.cons_append]
  | case3 q c r ih =>
      by_cases hr : r = []
      · subst hr
        have hcloses : (c == q || c == '\n') = true := by
          by_contra hopen
          rw [zoneInLiteral, if_neg hopen] at h
          split at h <;> cases h
        have hlast : maskFrom (.literal q) [c] = [c] := by rw [maskFrom]
        cases u with
        | nil => rw [List.append_nil, maskFrom, List.append_nil]
        | cons x u =>
            rw [List.cons_append, List.nil_append, maskFrom_literal_cons_of_ne (by simp), hlast,
              zoneInLiteral, if_pos hcloses, if_pos hcloses]
            rfl
      · rw [List.cons_append, maskFrom_literal_cons_of_ne (by simp [hr]),
          maskFrom_literal_cons_of_ne hr, ih h, List.cons_append]
  | case4 q c r ih =>
      have hr : r ≠ [] := by
        rintro rfl
        cases h
      rw [List.cons_append, maskFrom_escaped_cons_of_ne (by simp [hr]),
        maskFrom_escaped_cons_of_ne hr, ih h, List.cons_append]
  | case5 => cases h

/-! ### Code -/

/-- The code of a text: all that is neither blank nor inside of a comment or a literal. -/
def codeOnly (t : Text) : Text :=
  (maskCode t).solid

/-- The code of a text is what its masked copy has that is not blank. -/
theorem codeOnly_eq (t : Text) : codeOnly t = (maskFrom .code t).solid :=
  rfl

/-- **A sealed text comes before the code of what follows it.** -/
theorem codeOnly_append {t : Text} (h : isSealed t = true) (u : Text) :
    codeOnly (t ++ u) = codeOnly t ++ codeOnly u := by
  rw [codeOnly_eq, maskFrom_append_of_isSealedFrom h, Text.solid_append]
  rfl

/-- A blank is no code. -/
theorem codeOnly_cons_of_isBlank {c : Char} (hc : isBlank c = true) (t : Text) :
    codeOnly (c :: t) = codeOnly t := by
  have hmask := maskFrom_code_blanks (b := [c]) (by simpa [Text.isBlank] using hc) t
  rw [List.singleton_append, List.singleton_append] at hmask
  rw [codeOnly_eq, hmask, Text.solid_cons_of_blank hc]
  rfl

/-- The rest of a comment up to the end of its line leaves no trace. -/
theorem solid_maskFrom_lineComment {c : Text} (hc : '\n' ∉ c) (t : Text) :
    (maskFrom .lineComment (c ++ '\n' :: t)).solid = codeOnly t := by
  induction c with
  | nil =>
      rw [List.nil_append, maskFrom, Text.solid_cons_of_blank (isBlank_hide _)]
      rfl
  | cons x c ih =>
      obtain ⟨hx, hc⟩ := not_or.mp (List.mem_cons.not.mp hc)
      have hline : (x == '\n') = false := by simpa using Ne.symm hx
      rw [List.cons_append, maskFrom, hline, Text.solid_cons_of_blank (isBlank_hide _)]
      exact ih hc

/-- **A comment up to the end of its line leaves no trace.** -/
theorem codeOnly_lineComment {c : Text} (hc : '\n' ∉ c) (t : Text) :
    codeOnly ('/' :: '/' :: (c ++ '\n' :: t)) = codeOnly t := by
  rw [codeOnly_eq, maskFrom, Text.solid_cons_of_blank rfl, Text.solid_cons_of_blank rfl,
    solid_maskFrom_lineComment hc]

/-- A text occurs at the start of another or behind its first character. -/
theorem Text.hasInfix_cons (p : Text) (c : Char) (t : Text) :
    Text.hasInfix (c :: t) p = (p.isPrefixOf (c :: t) || t.hasInfix p) := by
  rw [Text.hasInfix, Text.find?]
  split <;> simp_all [Text.hasInfix]

/-- The content of a comment up to its closing mark, character by character. -/
theorem hasInfix_cons_eq_false {x : Char} {c : Text} (h : Text.hasInfix (x :: c) "*/" = false) :
    ¬ (x = '*' ∧ c.head? = some '/') ∧ Text.hasInfix c "*/" = false := by
  rw [Text.hasInfix_cons, Bool.or_eq_false_iff] at h
  refine ⟨?_, h.2⟩
  rintro ⟨rfl, hhead⟩
  obtain ⟨c, rfl⟩ := List.head?_eq_some_iff.mp hhead
  cases h.1

/-- The rest of a comment up to its closing mark leaves no trace. -/
theorem solid_maskFrom_blockComment {c : Text} (hc : c.hasInfix "*/" = false) (t : Text) :
    (maskFrom .blockComment (c ++ '*' :: '/' :: t)).solid = codeOnly t := by
  induction c with
  | nil =>
      rw [List.nil_append, maskFrom, Text.solid_cons_of_blank rfl, Text.solid_cons_of_blank rfl]
      rfl
  | cons x c ih =>
      obtain ⟨hmark, hc⟩ := hasInfix_cons_eq_false hc
      rw [List.cons_append, maskFrom, Text.solid_cons_of_blank (isBlank_hide _), ih hc]
      rintro r rfl hr
      cases c with
      | nil => exact absurd (List.cons.inj hr).1 (by decide)
      | cons y c => exact hmark ⟨rfl, by simp [(List.cons.inj hr).1]⟩

/-- **A comment up to its closing mark leaves no trace.** -/
theorem codeOnly_blockComment {c : Text} (hc : c.hasInfix "*/" = false) (t : Text) :
    codeOnly ('/' :: '*' :: (c ++ '*' :: '/' :: t)) = codeOnly t := by
  rw [codeOnly_eq, maskFrom, Text.solid_cons_of_blank rfl, Text.solid_cons_of_blank rfl,
    solid_maskFrom_blockComment hc]

end Sharpen
