import Mathlib.Data.List.DropRight
import Sharpen.Proofs.Header.Masked

/-!
# The Next Code of a Body

Between two constructs of a body there may be blanks, comments and semicolons. The masked copy shows
comments as blanks, so that what stands next in it is the same whatever the comments say, and a
reading that goes on behind a statement comes no further than to this.

A reading that has passed a statement may stop at a comment or go on behind it, depending on whether
the comment was taken with the statement. Seen in the masked copy, both are in front of the same
code. The lemmas here say so for each way in which a step goes on: behind a statement, behind a
comment, on the next line.

## Main definitions

* `nextCode` — what is left of a body behind blanks and lone semicolons.
* `Page.codeStart` — where the code of a line starts, from position `pos` on.

## Main results

* `nextCode_afterStatementWithin`, `nextCode_slice_of_isBlank` — going on behind a statement or a
  comment leaves the next code.
* `Page.codeStart_spec` — a line with code, seen from the start of its code.
-/

namespace Sharpen

/-! ### The next code -/

/-- A blank in front of a text is trimmed with those behind it. -/
theorem Text.trimStart_cons_blank {c : Char} (hc : Sharpen.isBlank c = true) (r : Text) :
    Text.trimStart (c :: r) = Text.trimStart r := by
  rw [Text.trimStart, List.dropWhile_cons, if_pos hc, Text.trimStart]

/-- At any other character there is nothing to trim. -/
theorem Text.trimStart_cons_code {c : Char} (hc : ¬Sharpen.isBlank c = true) (r : Text) :
    Text.trimStart (c :: r) = c :: r := by
  rw [Text.trimStart, List.dropWhile_cons, if_neg hc]

/-- A line with more than blanks and semicolons is not blank. -/
theorem isBlank_eq_false {t : Text} (h : isStatementRest t = false) : t.isBlank = false := by
  rw [Bool.eq_false_iff] at h ⊢
  intro hblank
  refine h (List.all_eq_true.mpr fun c hc => ?_)
  rw [List.all_eq_true.mp hblank c hc, Bool.or_true]

/-- What is left of a masked body behind blanks and behind semicolons with nothing else up to the
end of their line. -/
def nextCode : Text → Text
  | [] => []
  | c :: r => if isBlank c || isStatementRest (Text.firstLine (c :: r)) then nextCode r else c :: r

/-- Blanks in front of the code are passed over. -/
theorem nextCode_append {b : Text} (hb : b.isBlank = true) (t : Text) :
    nextCode (b ++ t) = nextCode t := by
  induction b with
  | nil => rfl
  | cons c b ih =>
      simp only [Text.isBlank, List.all_cons, Bool.and_eq_true] at hb
      rw [List.cons_append, nextCode, hb.1, Bool.true_or, if_pos rfl, ih hb.2]

/-- A line with nothing but blanks and semicolons is passed over. -/
theorem nextCode_drop_firstLine {t : Text} (h : isStatementRest t.firstLine = true) :
    nextCode t = nextCode (t.drop (t.firstLine.length + 1)) := by
  induction t with
  | nil => rfl
  | cons c r ih =>
      rw [nextCode, h, Bool.or_true, if_pos rfl]
      by_cases hc : c = '\n'
      · simp [Text.firstLine, hc]
      · rw [Text.firstLine_cons hc] at h ⊢
        simp only [isStatementRest, List.all_cons, Bool.and_eq_true] at h
        rw [List.length_cons, List.drop_succ_cons]
        exact ih h.2

/-- Any other line has the next code, behind its blanks. -/
theorem nextCode_eq_trimStart {t : Text} (h : isStatementRest t.firstLine = false) :
    nextCode t = t.trimStart := by
  induction t with
  | nil => cases h
  | cons c r ih =>
      have hc : c ≠ '\n' := by
        rintro rfl
        cases h
      by_cases hb : isBlank c = true
      · rw [Text.firstLine_cons hc] at h
        simp only [isStatementRest, List.all_cons, hb, Bool.or_true, Bool.true_and] at h
        rw [nextCode, hb, Bool.true_or, if_pos rfl, ih h, Text.trimStart_cons_blank hb]
      · rw [nextCode, h, Bool.or_false, if_neg hb, Text.trimStart_cons_code hb]

/-- The blanks in front of a line with code are the blanks in front of the text. -/
theorem firstLine_split {t : Text} (h : t.firstLine.isBlank = false) :
    ∃ b : Text, b.isBlank = true ∧ t = b ++ t.trimStart ∧
      t.firstLine = b ++ t.trimStart.firstLine ∧
      t.firstLine.trimStart = t.trimStart.firstLine := by
  induction t with
  | nil => cases h
  | cons c r ih =>
      have hc : c ≠ '\n' := by
        rintro rfl
        cases h
      rw [Text.firstLine_cons hc] at h ⊢
      by_cases hb : isBlank c = true
      · simp only [Text.isBlank, List.all_cons, hb, Bool.true_and] at h
        obtain ⟨b, hblank, ht, hfirst, htrim⟩ := ih h
        simp only [Text.trimStart_cons_blank hb]
        refine ⟨c :: b, by rw [Text.isBlank, List.all_cons, hb]; exact hblank, ?_, ?_, htrim⟩
        · rw [List.cons_append, ← ht]
        · rw [List.cons_append, ← hfirst]
      · simp only [Text.trimStart_cons_code hb, Text.firstLine_cons hc]
        exact ⟨[], rfl, rfl, rfl, trivial⟩

/-- The code of a line that holds only blanks and semicolons starts with a semicolon. -/
theorem trimStart_eq_semicolon {t : Text} (hrest : isStatementRest t.firstLine = true)
    (hcode : t.firstLine.isBlank = false) :
    ∃ r, t.trimStart = ';' :: r ∧ nextCode t = nextCode r := by
  obtain ⟨b, hb, ht, hfirst, htrim⟩ := firstLine_split hcode
  cases hleft : t.trimStart with
  | nil =>
      rw [hleft] at htrim
      have hblank : t.firstLine.isBlank = true :=
        List.all_eq_true.mpr (List.dropWhile_eq_nil_iff.mp htrim)
      rw [hblank] at hcode
      cases hcode
  | cons c r =>
      have hc : isBlank c = false := by
        have hnot := List.head?_dropWhile_not isBlank t
        rw [show t.dropWhile isBlank = c :: r from hleft] at hnot
        simpa using hnot
      have hnewline : c ≠ '\n' := by
        rintro rfl
        cases hc
      have hmem := List.all_eq_true.mp hrest c
        (by rw [hfirst, hleft, Text.firstLine_cons hnewline]; simp)
      obtain rfl : c = ';' := by simpa [hc] using hmem
      refine ⟨r, rfl, ?_⟩
      rw [ht, hleft, nextCode_append hb, nextCode]
      have hrest' : isStatementRest (Text.firstLine (';' :: r)) = true := by
        rw [hfirst, hleft] at hrest
        simp only [isStatementRest, List.all_append, Bool.and_eq_true] at hrest
        exact hrest.2
      rw [hrest', Bool.or_true, if_pos rfl]

/-! ### The code of a line -/

/-- Where the code of a line starts, from position `pos` on. -/
def Page.codeStart (page : Page) (pos limit : Nat) : Nat :=
  let masked : Text := page.masked.slice pos (page.lineEndWithin pos limit)
  pos + (masked.length - masked.trimStart.length)

namespace Page

variable {page : Page} {pos limit : Nat}

section

variable (hmask : page.masked = maskCode page.text) (hpos : pos ≤ limit)
  (hlimit : limit ≤ page.masked.length)

include hmask hpos hlimit

/-- A line ends behind what is left of it. -/
theorem lineEndWithin_eq :
    page.lineEndWithin pos limit = pos + (page.masked.slice pos limit).firstLine.length := by
  have hlength := congrArg List.length (page.slice_lineEndWithin hmask pos limit)
  have htext := length_masked hmask
  have hline := page.le_lineEnd pos
  have hle : page.lineEndWithin pos limit ≤ limit := Nat.min_le_right _ _
  have hge : pos ≤ page.lineEndWithin pos limit := by
    rw [lineEndWithin]
    omega
  rw [Text.slice, List.length_drop, List.length_take] at hlength
  rw [← hlength]
  omega

variable (hcode : Text.isBlank (page.masked.slice pos (page.lineEndWithin pos limit)) = false)

include hcode

/-- A line with code, seen from the start of its code: the line ends in the same place, and the code
is the same. -/
theorem codeStart_spec :
    page.masked.slice (page.codeStart pos limit) limit = (page.masked.slice pos limit).trimStart ∧
      page.codeStart pos limit + (page.masked.slice pos limit).trimStart.length = limit ∧
      page.lineEndWithin (page.codeStart pos limit) limit = page.lineEndWithin pos limit ∧
      Text.trim (page.masked.slice (page.codeStart pos limit) (page.lineEndWithin pos limit))
        = Text.trim (page.masked.slice pos (page.lineEndWithin pos limit)) := by
  rw [slice_lineEndWithin hmask] at hcode
  obtain ⟨b, -, hbody, hfirst, htrim⟩ := firstLine_split hcode
  have hlength : (page.masked.slice pos limit).length = limit - pos := by
    rw [Text.slice, List.length_drop, List.length_take]
    omega
  have hcount := congrArg List.length hbody
  have hfirstCount := congrArg List.length hfirst
  rw [List.length_append] at hcount hfirstCount
  have hstart : page.codeStart pos limit = pos + b.length := by
    rw [codeStart]
    simp only [slice_lineEndWithin hmask]
    rw [htrim]
    omega
  have hslice : page.masked.slice (page.codeStart pos limit) limit
      = (page.masked.slice pos limit).trimStart := by
    rw [hstart, Text.slice_add]
    conv_lhs => rw [hbody]
    rw [List.drop_left]
  have hend : page.lineEndWithin (page.codeStart pos limit) limit
      = page.lineEndWithin pos limit := by
    rw [lineEndWithin_eq hmask (by omega) hlimit, lineEndWithin_eq hmask hpos hlimit, hslice]
    omega
  refine ⟨hslice, by omega, hend, ?_⟩
  rw [← hend, slice_lineEndWithin hmask, hslice, hend, slice_lineEndWithin hmask, Text.trim,
    Text.trim, ← htrim, Text.trimStart, Text.trimStart, List.dropWhile_idempotent]

end

end Page

section

variable {page : Page} (hmask : page.masked = maskCode page.text) {limit : Nat}
  (hlimit : limit ≤ page.masked.length)

/-- Going on behind blanks leaves the next code. -/
theorem nextCode_slice_of_isBlank {i j : Nat} (hij : i ≤ j)
    (h : Text.isBlank (page.masked.slice i j) = true) :
    nextCode (page.masked.slice j limit) = nextCode (page.masked.slice i limit) := by
  by_cases hj : j ≤ limit
  · have hsplit : page.masked.slice i limit
        = page.masked.slice i j ++ page.masked.slice j limit := by
      have hhead : page.masked.slice i j = (page.masked.slice i limit).take (j - i) := by
        rw [Text.slice, Text.slice, List.drop_take, List.drop_take, List.take_take,
          Nat.min_eq_left (by omega)]
      have hrest : page.masked.slice j limit = (page.masked.slice i limit).drop (j - i) := by
        rw [← Text.slice_add, Nat.add_sub_cancel' hij]
      rw [hhead, hrest, List.take_append_drop]
    rw [hsplit, nextCode_append h]
  · have hblank : Text.isBlank (page.masked.slice i limit) = true := by
      have hhead : page.masked.slice i limit = (page.masked.slice i j).take (limit - i) := by
        rw [Text.slice, Text.slice, List.drop_take, List.drop_take, List.take_take,
          Nat.min_eq_left (by omega)]
      rw [hhead]
      exact List.all_eq_true.mpr fun c hc => List.all_eq_true.mp h c (List.mem_of_mem_take hc)
    rw [Text.slice_eq_nil (by omega), ← List.append_nil (page.masked.slice i limit),
      nextCode_append hblank]

include hmask hlimit

/-- Going on behind a line without code leaves the next code. -/
theorem nextCode_nextLine {i : Nat}
    (h : isStatementRest (page.masked.slice i (page.lineEndWithin i limit)) = true) :
    nextCode (page.masked.slice (nextLine (page.lineEndWithin i limit) limit) limit)
      = nextCode (page.masked.slice i limit) := by
  have hnil : ∀ {k : Nat}, limit ≤ k → page.masked.slice k limit = [] :=
    fun hk => Text.slice_eq_nil (by omega)
  rw [Page.slice_lineEndWithin hmask] at h
  by_cases hi : i ≤ limit
  · have hend := Page.lineEndWithin_eq hmask hi hlimit
    rw [nextCode_drop_firstLine h, ← Text.slice_add, ← Nat.add_assoc, ← hend, nextLine]
    split
    · rfl
    · rw [hnil (Nat.le_refl _), hnil (by omega)]
  · have htext := Page.length_masked hmask
    have hline := page.le_lineEnd i
    have hend : page.lineEndWithin i limit = limit := by
      rw [Page.lineEndWithin]
      omega
    rw [hend, nextLine, if_neg (Nat.lt_irrefl _), hnil (Nat.le_refl _), hnil (by omega)]

/-- Going on behind a statement leaves the next code. -/
theorem nextCode_afterStatementWithin (i : Nat) :
    nextCode (page.masked.slice (page.afterStatementWithin i limit) limit)
      = nextCode (page.masked.slice i limit) := by
  rw [Page.afterStatementWithin]
  split
  · exact nextCode_nextLine hmask hlimit ‹_›
  · rfl

end

/-- Code of a body stands before its end. -/
theorem Page.lt_of_code (page : Page) {i limit : Nat}
    (h : isStatementRest (page.masked.slice i (page.lineEndWithin i limit)) = false) :
    i < limit := by
  by_contra hle
  rw [Text.slice_eq_nil (by rw [lineEndWithin]; omega)] at h
  cases h

end Sharpen
