import Mathlib.Data.List.Basic
import Sharpen.Code.Line
import Sharpen.CSharp.Layout
import Sharpen.Text.Lower

/-!
# Line Breaks in Text

Line breaks are newlines and carriage returns. Two classes of characters leave them out: `oneLine`
has neither and `noReturn` has newlines. What is done to texts invents no line break, so that a text
made of texts of a class belongs to it too, and where a text is divided into words or lines the
parts have no newline any more.

Nearly all statements hold for both classes and are stated for any class that leaves out nothing but
line breaks. For each operation on texts there is one lemma, which says that it stays in the class.
Where an operation brings in characters of its own, as joining and replacing do, these are asked to
be in the class; spaces always are.

## Main definitions

* `LineClass` — a class that leaves out nothing but line breaks; `LineClass.Covers` says that it has
  all characters of a text.
* `LineClass.oneLine` — the characters of a line.
* `LineClass.noReturn` — the characters of a text whose line breaks are newlines.

## Main results

* `covers_words`, `covers_squeeze`, `covers_reindent` — what is on one line, whatever it was made
  from.
* `covers_lines` — the lines of a text without carriage returns.
-/

namespace Sharpen

/-- A class of characters that leaves out nothing but line breaks. -/
structure LineClass where
  has : Char → Prop
  has_of_ne : ∀ {c : Char}, c ≠ '\n' → c ≠ '\r' → has c

namespace LineClass

/-- The characters of a line. -/
def oneLine : LineClass :=
  ⟨fun c => c ≠ '\n' ∧ c ≠ '\r', And.intro⟩

/-- The characters of a text whose line breaks are newlines. -/
def noReturn : LineClass :=
  ⟨fun c => c ≠ '\r', fun _ h => h⟩

/-- A class has all characters of a text. -/
def Covers (S : LineClass) (t : Text) : Prop :=
  ∀ c ∈ t, S.has c

variable {S : LineClass} {t u : Text} {ts : List Text} {c : Char}

@[simp]
theorem covers_nil : S.Covers [] := by
  simp [Covers]

@[simp]
theorem covers_cons : S.Covers (c :: t) ↔ S.has c ∧ S.Covers t := by
  simp [Covers]

@[simp]
theorem covers_append : S.Covers (t ++ u) ↔ S.Covers t ∧ S.Covers u := by
  simp [Covers, or_imp, forall_and]

/-- A class that covers a text covers what is made of its characters. -/
theorem Covers.subset (h : S.Covers t) (hsub : u ⊆ t) : S.Covers u :=
  fun c hc => h c (hsub hc)

/-- Texts that follow each other are covered when each of them is. -/
theorem covers_flatten : S.Covers ts.flatten ↔ ∀ t ∈ ts, S.Covers t := by
  simp only [Covers, List.mem_flatten]
  exact ⟨fun h t ht c hc => h c ⟨t, ht, hc⟩, fun h c ⟨t, ht, hc⟩ => h t ht c hc⟩

/-- A text on one line is covered by every class. -/
theorem Covers.of_oneLine (h : oneLine.Covers t) : S.Covers t :=
  fun c hc => S.has_of_ne (h c hc).1 (h c hc).2

/-- A text is on one line when it has no line break. -/
theorem covers_oneLine_iff : oneLine.Covers t ↔ '\n' ∉ t ∧ '\r' ∉ t :=
  ⟨fun h => ⟨fun hn => (h _ hn).1 rfl, fun hr => (h _ hr).2 rfl⟩,
    fun h _ hc => ⟨fun hn => h.1 (hn ▸ hc), fun hr => h.2 (hr ▸ hc)⟩⟩

/-- The line breaks of a text are newlines when it has no carriage return. -/
theorem covers_noReturn_iff : noReturn.Covers t ↔ '\r' ∉ t :=
  ⟨fun h hr => h _ hr rfl, fun h _ hc hr => h (hr ▸ hc)⟩

/-- Without carriage returns, a text without newlines is on one line. -/
theorem Covers.oneLine_of_noReturn (h : noReturn.Covers t) (hn : '\n' ∉ t) : oneLine.Covers t :=
  covers_oneLine_iff.mpr ⟨hn, covers_noReturn_iff.mp h⟩

/-- A character with something that no line break has. -/
theorem has_of_eq_true {p : Char → Bool} (hn : p '\n' = false) (hr : p '\r' = false)
    (h : p c = true) : S.has c := by
  refine S.has_of_ne ?_ ?_
  · rintro rfl
    exact Bool.false_ne_true (hn.symm.trans h)
  · rintro rfl
    exact Bool.false_ne_true (hr.symm.trans h)

/-- A text whose characters all have something that no line break has. -/
theorem covers_of_forall {p : Char → Bool} (hn : p '\n' = false) (hr : p '\r' = false)
    (h : ∀ c ∈ t, p c = true) : S.Covers t :=
  fun c hc => has_of_eq_true hn hr (h c hc)

/-- A text that is written out here has no line break. -/
theorem covers_literal (h : (t.all fun c => c != '\n' && c != '\r') = true) : S.Covers t :=
  covers_of_forall rfl rfl (List.all_eq_true.mp h)

/-- The part that a text starts with, as far as its characters have such a thing. -/
theorem covers_takeWhile {p : Char → Bool} (hn : p '\n' = false) (hr : p '\r' = false) (t : Text) :
    S.Covers (t.takeWhile p) :=
  covers_of_forall hn hr (List.all_eq_true.mp List.all_takeWhile)

/-- A character is covered however often it is written. -/
theorem covers_replicate {n : Nat} (hc : S.has c) : S.Covers (List.replicate n c) :=
  fun _ h => List.eq_of_mem_replicate h ▸ hc

/-- A space is no line break. -/
theorem has_space : S.has ' ' :=
  S.has_of_ne (by decide) (by decide)

/-! ### Cutting -/

/-- What is cut out of a text is covered with it. -/
theorem covers_slice (h : S.Covers t) (i j : Nat) : S.Covers (t.slice i j) :=
  h.subset fun _ hc => List.mem_of_mem_take (List.mem_of_mem_drop hc)

/-- So is what is left of it when its end is dropped. -/
theorem covers_dropEndWhile (h : S.Covers t) (p : Char → Bool) : S.Covers (t.dropEndWhile p) := by
  refine h.subset fun c hc => ?_
  exact List.mem_reverse.mp ((List.dropWhile_suffix p).subset (List.mem_reverse.mp hc))

/-- So is what is left without the blanks it starts with. -/
theorem covers_trimStart (h : S.Covers t) : S.Covers t.trimStart :=
  h.subset (List.dropWhile_suffix isBlank).subset

/-- So is what is left without the blanks it ends with. -/
theorem covers_trimEnd (h : S.Covers t) : S.Covers t.trimEnd :=
  covers_dropEndWhile h isBlank

/-- So is what is left without the blanks at either end. -/
theorem covers_trim (h : S.Covers t) : S.Covers t.trim :=
  covers_trimEnd (covers_trimStart h)

/-- What stands before a separator has none. -/
theorem cutAt_eq_some {sep : Char} {a b : Text} (h : Text.cutAt sep t = some (a, b)) :
    t = a ++ sep :: b ∧ sep ∉ a := by
  induction t generalizing a with
  | nil => simp [Text.cutAt] at h
  | cons c r ih =>
      rw [Text.cutAt] at h
      split at h
      · rename_i hc
        obtain ⟨rfl, rfl⟩ := Prod.mk.inj (Option.some.inj h)
        simp_all
      · rename_i hc
        obtain ⟨⟨a', b'⟩, hcut, heq⟩ := Option.map_eq_some_iff.mp h
        obtain ⟨rfl, rfl⟩ := Prod.mk.inj heq
        obtain ⟨hr, hsep⟩ := ih hcut
        have hne : sep ≠ c := by
          rintro rfl
          simp at hc
        exact ⟨by rw [hr, List.cons_append], by simp [hne, hsep]⟩

/-- A text without a separator has nothing to cut. -/
theorem not_mem_of_cutAt_eq_none {sep : Char} (h : Text.cutAt sep t = none) : sep ∉ t := by
  induction t with
  | nil => simp
  | cons c r ih =>
      rw [Text.cutAt] at h
      split at h
      · cases h
      · rename_i hc
        have hne : sep ≠ c := by
          rintro rfl
          simp at hc
        simp [hne, ih (Option.map_eq_none_iff.mp h)]

/-- The first line of a text without carriage returns is on one line. -/
theorem covers_cutLine (h : noReturn.Covers t) : oneLine.Covers (Text.cutLine t).1 := by
  rw [Text.cutLine]
  cases hcut : Text.cutAt '\n' t with
  | none => exact h.oneLine_of_noReturn (not_mem_of_cutAt_eq_none hcut)
  | some p =>
      obtain ⟨heq, hn⟩ := cutAt_eq_some hcut
      have hfirst : noReturn.Covers p.1 := h.subset (heq ▸ List.subset_append_left _ _)
      exact hfirst.oneLine_of_noReturn hn

/-- If nothing is left behind the first line, it is all of the text, unless this ends with a
newline. -/
theorem cutLine_fst_eq (h : (Text.cutLine t).2 = []) (hlast : t.getLast? ≠ some '\n') :
    (Text.cutLine t).1 = t := by
  rw [Text.cutLine] at h ⊢
  cases hcut : Text.cutAt '\n' t with
  | none => rfl
  | some p =>
      obtain ⟨heq, -⟩ := cutAt_eq_some hcut
      rw [hcut] at h
      rw [heq, show p.2 = [] from h] at hlast
      simp at hlast

/-! ### Parts -/

/-- A character in front of the first of some texts leaves all of them covered. -/
theorem covers_consHead (hc : S.has c) (h : ∀ t ∈ ts, S.Covers t) :
    ∀ t ∈ Text.consHead c ts, S.Covers t := by
  cases ts with
  | nil => simp [Text.consHead, hc]
  | cons u r =>
      intro t ht
      rcases List.mem_cons.mp ht with rfl | ht
      · exact covers_cons.mpr ⟨hc, h u List.mem_cons_self⟩
      · exact h t (List.mem_cons_of_mem _ ht)

/-- The parts between separators have no separator. -/
theorem not_mem_of_mem_splitOn {sep : Char} (h : u ∈ Text.splitOn sep t) : sep ∉ u := by
  induction t generalizing u with
  | nil => simp_all [Text.splitOn]
  | cons c r ih =>
      rw [Text.splitOn] at h
      split at h
      · rcases List.mem_cons.mp h with rfl | h
        · simp
        · exact ih h
      · rename_i hc
        have hne : sep ≠ c := by
          rintro rfl
          simp at hc
        cases hsplit : Text.splitOn sep r with
        | nil => simp_all [Text.consHead]
        | cons v vs =>
            rw [hsplit] at h
            rcases List.mem_cons.mp h with rfl | h
            · simp [hne, ih (hsplit ▸ List.mem_cons_self)]
            · exact ih (hsplit ▸ List.mem_cons_of_mem _ h)

/-- The parts of a text between the places of a separator are covered with it. -/
theorem covers_splitOn {sep : Char} (h : S.Covers t) : ∀ u ∈ Text.splitOn sep t, S.Covers u := by
  induction t with
  | nil => simp [Text.splitOn]
  | cons c r ih =>
      obtain ⟨hc, hr⟩ := covers_cons.mp h
      rw [Text.splitOn]
      split
      · intro u hu
        rcases List.mem_cons.mp hu with rfl | hu
        · exact covers_nil
        · exact ih hr u hu
      · exact covers_consHead hc (ih hr)

/-- **The lines of a text without carriage returns.** -/
theorem covers_lines (h : noReturn.Covers t) : ∀ l ∈ t.lines, oneLine.Covers l := fun l hl =>
  Covers.oneLine_of_noReturn (covers_splitOn h l hl) (not_mem_of_mem_splitOn hl)

/-- What is not blank is no line break. -/
theorem has_of_isBlank_eq_false (h : isBlank c = false) : S.has c :=
  has_of_eq_true (p := fun c => !isBlank c) (by decide) (by decide) (by simpa using h)

/-- **Words are on one line**, because line breaks are blank. -/
theorem covers_words (t : Text) : ∀ w ∈ t.words, S.Covers w := by
  induction t with
  | nil => simp [Text.words]
  | cons c r ih =>
      rw [Text.words]
      split
      · exact ih
      · rename_i hc
        have hc' : S.has c := has_of_isBlank_eq_false (by simpa using hc)
        split
        · intro w hw
          rcases List.mem_cons.mp hw with rfl | hw
          · simp [hc']
          · exact ih w hw
        · exact covers_consHead hc' ih

/-- **A text with one space per run of blanks is on one line.** -/
theorem covers_squeeze (t : Text) : S.Covers t.squeeze := by
  induction t with
  | nil => simp [Text.squeeze]
  | cons c r ih =>
      rw [Text.squeeze]
      split
      · split
        · exact ih
        · exact covers_cons.mpr ⟨has_space, ih⟩
      · rename_i hc
        exact covers_cons.mpr ⟨has_of_isBlank_eq_false (by simpa using hc), ih⟩

/-- The last of some texts is covered with the others, and the empty text in its place is. -/
theorem covers_getLastD (h : ∀ t ∈ ts, S.Covers t) : S.Covers (ts.getLastD []) := by
  rw [List.getLastD_eq_getLast?]
  cases hlast : ts.getLast? with
  | none => exact covers_nil
  | some t => exact h t (List.mem_of_getLast? hlast)

/-! ### Putting together -/

/-- Texts written with a separator between them are covered when each of them is. -/
theorem covers_join {sep : Text} (hsep : S.Covers sep) :
    S.Covers (Text.join sep ts) ↔ ∀ t ∈ ts, S.Covers t := by
  induction ts with
  | nil => simp [Text.join]
  | cons t r ih =>
      cases r with
      | nil => simp [Text.join]
      | cons u r =>
          have hjoin : Text.join sep (t :: u :: r) = t ++ (sep ++ Text.join sep (u :: r)) := by
            simp [Text.join, List.intercalate]
          rw [hjoin, covers_append, covers_append, ih]
          simp [hsep]

/-- A text whose blanks are written as spaces is on one line. -/
theorem covers_normalizeBlanks (t : Text) : S.Covers t.normalizeBlanks :=
  (covers_join (covers_literal (by decide))).mpr (covers_words t)

/-- Replacing a text by another brings in no more than the other has, wherever the search goes on.
-/
theorem covers_replaceFrom {old new : Text} (hnew : S.Covers new) (n : Nat) (h : S.Covers t) :
    S.Covers (Text.replaceFrom old new n t) := by
  induction t generalizing n with
  | nil => simp [Text.replaceFrom]
  | cons c r ih =>
      obtain ⟨hc, hr⟩ := covers_cons.mp h
      cases n with
      | succ n => exact ih n hr
      | zero =>
          rw [Text.replaceFrom]
          split
          · exact covers_append.mpr ⟨hnew, ih _ hr⟩
          · exact covers_cons.mpr ⟨hc, ih 0 hr⟩

/-- So it is when every place of a text is replaced. -/
theorem covers_replaceAll {old new : Text} (h : S.Covers t) (hnew : S.Covers new) :
    S.Covers (Text.replaceAll t old new) :=
  covers_replaceFrom hnew 0 h

/-- A number is on one line. -/
theorem covers_ofNat (n : Nat) : S.Covers (Text.ofNat n) :=
  covers_of_forall (p := Char.isDigit) rfl rfl fun _ hc =>
    Nat.isDigit_of_mem_toDigits (by decide) (by decide) hc

/-! ### Words in place -/

/-- The words of a text consist of word characters. -/
theorem isWord_of_mem_leadAndRuns (t : Text) :
    (∀ c ∈ t.leadAndRuns.1, isWord c = true) ∧
      ∀ w ∈ t.leadAndRuns.2, ∀ c ∈ w, isWord c = true := by
  induction t with
  | nil => simp [Text.leadAndRuns]
  | cons c r ih =>
      obtain ⟨hlead, hruns⟩ := ih
      rw [Text.leadAndRuns]
      dsimp only
      split
      · rename_i hc
        refine ⟨fun d hd => ?_, hruns⟩
        rcases List.mem_cons.mp hd with rfl | hd
        · exact hc
        · exact hlead d hd
      · refine ⟨by simp, fun w hw => ?_⟩
        split at hw
        · exact hruns w hw
        · rcases List.mem_cons.mp hw with rfl | hw
          · exact hlead
          · exact hruns w hw

/-- The words of a text are on one line each. -/
theorem covers_wordRuns (t : Text) : ∀ w ∈ t.wordRuns, S.Covers w := by
  obtain ⟨hlead, hruns⟩ := isWord_of_mem_leadAndRuns t
  intro w hw
  refine covers_of_forall (p := isWord) (by decide) (by decide) ?_
  rw [Text.wordRuns] at hw
  dsimp only at hw
  split at hw
  · exact hruns w hw
  · rcases List.mem_cons.mp hw with rfl | hw
    · exact hlead
    · exact hruns w hw

/-- Changing the words of a text leaves it covered if it leaves the words covered. -/
theorem covers_mapWords {f : Text → Text} (hf : ∀ w, S.Covers w → S.Covers (f w))
    (h : S.Covers t) : S.Covers (Text.mapWords f t) := by
  have hword : ∀ w, S.Covers w → S.Covers (Text.mapWord f w) := by
    intro w hw
    rw [Text.mapWord]
    split
    · exact covers_nil
    · exact hf w hw
  have hboth : S.Covers (Text.leadAndMapped f t).1 ∧ S.Covers (Text.leadAndMapped f t).2 := by
    induction t with
    | nil => simp [Text.leadAndMapped]
    | cons c r ih =>
        obtain ⟨hc, hr⟩ := covers_cons.mp h
        obtain ⟨hlead, hrest⟩ := ih hr
        rw [Text.leadAndMapped]
        dsimp only
        split
        · exact ⟨covers_cons.mpr ⟨hc, hlead⟩, hrest⟩
        · exact ⟨covers_nil, covers_cons.mpr ⟨hc, covers_append.mpr ⟨hword _ hlead, hrest⟩⟩⟩
  exact covers_append.mpr ⟨hword _ hboth.1, hboth.2⟩

/-- So does replacing one of its words by a text that is covered. -/
theorem covers_replaceWord {w new : Text} (h : S.Covers t) (hnew : S.Covers new) :
    S.Covers (Text.replaceWord w new t) := by
  refine covers_mapWords (fun v hv => ?_) h
  split
  · exact hnew
  · exact hv

/-! ### Lower case -/

/-- The character of a number has that number, or zero if the number is that of no character. -/
theorem toNat_ofNat_eq (n : Nat) : (Char.ofNat n).toNat = n ∨ (Char.ofNat n).toNat = 0 := by
  by_cases h : n.isValidChar
  · exact Or.inl (congrArg Char.toNat (dif_pos h))
  · exact Or.inr (congrArg Char.toNat (dif_neg h))

/-- A character beyond the controls is no line break. -/
theorem has_of_toNat (h : c.toNat = 0 ∨ 13 < c.toNat) : S.has c := by
  refine S.has_of_ne ?_ ?_
  · rintro rfl
    exact absurd h (by decide)
  · rintro rfl
    exact absurd h (by decide)

/-- The small letter of a character that is no line break is none. No image in the table is a
control, and a number that is no character counts as zero. -/
theorem has_lowerChar (hc : oneLine.has c) : S.has (lowerChar c) := by
  have hsame : S.has c := S.has_of_ne hc.1 hc.2
  rw [lowerChar]
  split
  · by_cases hupper : c.val ≥ 'A'.val ∧ c.val ≤ 'Z'.val
    · have hlower : c.toLower.toNat = (c.val + ('a'.val - 'A'.val)).toNat :=
        congrArg Char.toNat (dif_pos hupper)
      have hval : 65 ≤ c.val.toNat ∧ c.val.toNat ≤ 90 := hupper
      have hdiff : ('a'.val - 'A'.val).toNat = 32 := rfl
      refine has_of_toNat (Or.inr ?_)
      rw [hlower, UInt32.toNat_add, hdiff]
      omega
    · have hlower : c.toLower = c := dif_neg hupper
      rw [hlower]
      exact hsame
  · split
    · rename_i r hr
      have hruns : ∀ r ∈ lowerRuns, 13 < r.2.2.2 := by decide +kernel
      have himage := hruns r (List.mem_of_find?_eq_some hr)
      refine has_of_toNat ?_
      rcases toNat_ofNat_eq (r.2.2.2 + (c.toNat - r.1)) with h | h <;> omega
    · exact hsame

/-! ### Blocks -/

/-- Normalized line breaks are newlines. -/
theorem covers_normalizeNewlines (t : Text) : noReturn.Covers t.normalizeNewlines := by
  fun_induction Text.normalizeNewlines t with
  | case1 => exact covers_nil
  | case2 r ih => exact covers_cons.mpr ⟨show '\n' ≠ '\r' by decide, ih⟩
  | case3 c r _ ih =>
      refine covers_cons.mpr ⟨?_, ih⟩
      split
      · exact show '\n' ≠ '\r' by decide
      · rename_i hc
        exact show c ≠ '\r' by simpa using hc

/-- Writing tabs as spaces brings in no line break. -/
theorem covers_expandTabs (h : S.Covers t) : S.Covers (expandTabs t) := by
  rw [expandTabs, List.flatMap, covers_flatten]
  intro u hu
  obtain ⟨c, hc, rfl⟩ := List.mem_map.mp hu
  split
  · exact covers_replicate has_space
  · exact covers_cons.mpr ⟨h c hc, covers_nil⟩

/-- Nor does taking the shared indentation off some lines. -/
theorem covers_stripCommonIndent (h : ∀ t ∈ ts, S.Covers t) :
    ∀ t ∈ (stripCommonIndent ts).1, S.Covers t := by
  intro t ht
  obtain ⟨l, hl, rfl⟩ := List.mem_map.mp ht
  obtain ⟨l', hl', rfl⟩ := List.mem_map.mp hl
  split
  · exact covers_nil
  · exact (covers_trimEnd (covers_expandTabs (h l' hl'))).subset (List.drop_subset _ _)

/-- The lines that are left when the blank ones at the ends go are lines as they were. -/
theorem mem_of_mem_trimBlankLines {l : Text} (h : l ∈ trimBlankLines ts) : l ∈ ts := by
  have h' := (List.dropWhile_suffix _).subset (List.mem_reverse.mp h)
  exact (List.dropWhile_suffix _).subset (List.mem_reverse.mp h')

/-- A captured block has no carriage returns. -/
theorem covers_normalizeBlock (t : Text) : noReturn.Covers (normalizeBlock t).1 := by
  have hsep : noReturn.Covers ("\n" : Text) := covers_noReturn_iff.mpr (by decide)
  refine (covers_join hsep).mpr ?_
  refine covers_stripCommonIndent fun l hl => ?_
  exact (covers_lines (covers_normalizeNewlines t) l (mem_of_mem_trimBlankLines hl)).of_oneLine

/-- An indentation is on one line. -/
theorem covers_indentation (level : Int) : S.Covers (indentation level) :=
  covers_replicate has_space

/-- Where blank lines are collapsed, each line is one of those there were or the blank line in their
place. -/
theorem mem_collapseFrom {blank l : Text} {afterBlank : Bool}
    (h : l ∈ collapseFrom blank afterBlank ts) : l = blank ∨ l ∈ ts := by
  induction ts generalizing afterBlank with
  | nil => simp [collapseFrom] at h
  | cons t r ih =>
      simp only [collapseFrom] at h
      have hrest : ∀ {b : Bool}, l ∈ collapseFrom blank b r → l = blank ∨ l ∈ t :: r :=
        fun h => (ih h).imp_right (List.mem_cons_of_mem _)
      split at h
      · split at h
        · exact hrest h
        · rcases List.mem_cons.mp h with rfl | h
          · exact Or.inl rfl
          · exact hrest h
      · rcases List.mem_cons.mp h with rfl | h
        · exact Or.inr List.mem_cons_self
        · exact hrest h

/-- **The lines of a block that is written at a level** are single lines. Dropping blank lines on
both sides leaves lines of the text. -/
theorem covers_reindent (t : Text) (level : Int) : ∀ l ∈ reindent t level, S.Covers l := by
  intro l hl
  refine Covers.of_oneLine ?_
  rcases mem_collapseFrom hl with rfl | hl
  · exact covers_indentation level
  · obtain ⟨l', hl', rfl⟩ := List.mem_map.mp hl
    split
    · exact covers_nil
    have hmem := (List.dropWhile_suffix _).subset (List.mem_reverse.mp
      ((List.dropWhile_suffix _).subset (List.mem_reverse.mp hl')))
    obtain ⟨k, hk, rfl⟩ := List.mem_map.mp hmem
    have hline := covers_lines (covers_normalizeNewlines t) k hk
    have hcode : oneLine.Covers (expandTabs k).trimEnd := covers_trimEnd (covers_expandTabs hline)
    exact covers_append.mpr ⟨covers_indentation level, hcode.subset (List.drop_subset _ _)⟩

end LineClass

end Sharpen
