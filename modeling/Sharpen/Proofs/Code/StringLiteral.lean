import Sharpen.Code.Line
import Sharpen.Proofs.Decl.InitializerList

/-!
# String Literals

A string literal is written with an encoding, perhaps, and with its content in quotes. Whatever
stands in the content, a literal is passed over where comments, separators and brackets are looked
for. Only blanks are treated in it as they are elsewhere: a run of them becomes one space.

The content of a literal is any text without line breaks in which no quote stands without a
backslash before it, and no backslash at the end. Everything that looks for structure keeps one
piece of state for literals, so each statement follows by going through the content with this state,
and has the closing quote as its last step.

## Main definitions

* `StringLiteral` — a string literal on one line.
* `isLiteralContent` — whether a text is the content of a string literal: no quote and no backslash
  at its end is left without a backslash before it.
* `StringLiteral.text` — the text of a literal.
* `StringLiteral.masked` — the masked copy of a literal.

## Main results

* `maskFrom_text` — its masked copy; `lineCommentStart?_text` and `splitFrom_text` pass over it.
* `squeeze_text` — what becomes of its blanks; `normalizeBlanks_text` does the same.
* `parseInitializers_text` — an initializer with a literal.
-/

namespace Sharpen

/-- Whether a text is the content of a string literal: no quote and no backslash at its end is left
without a backslash before it. The first character may have one before it. -/
def isLiteralContent : (escaped : Bool) → Text → Bool
  | escaped, [] => !escaped
  | true, _ :: r => isLiteralContent false r
  | false, c :: r => c != '"' && isLiteralContent (c == '\\') r

/-- The encodings that a string literal can have. -/
def encodings : List Text :=
  ["", "L", "u8", "u", "U"]

/-- A string literal on one line. -/
structure StringLiteral where
  encoding : Text
  content : Text
  encoding_mem : encoding ∈ encodings
  content_isClosed : isLiteralContent false content = true
  content_isLine : '\n' ∉ content ∧ '\r' ∉ content

/-! ### Squeezing blanks -/

/-- A character that is not blank stays in front when blanks are squeezed. -/
theorem squeeze_cons_of_code {c : Char} (hc : isBlank c = false) (t : Text) :
    Text.squeeze (c :: t) = c :: t.squeeze := by
  simp [Text.squeeze, hc]

/-- A blank goes in front of another, and is a space in front of anything else. -/
theorem squeeze_cons_of_blank {c : Char} (hc : isBlank c = true) (d : Char) (t : Text) :
    Text.squeeze (c :: d :: t) =
      if isBlank d then Text.squeeze (d :: t) else ' ' :: Text.squeeze (d :: t) := by
  rw [Text.squeeze, if_pos hc, List.head?_cons, Option.any_some]

/-- What is not blank keeps apart what is squeezed. -/
theorem squeeze_append_cons {c : Char} (hc : isBlank c = false) (t u : Text) :
    Text.squeeze (t ++ c :: u) = t.squeeze ++ c :: u.squeeze := by
  induction t with
  | nil => exact squeeze_cons_of_code hc u
  | cons x t ih =>
      by_cases hx : isBlank x = true
      · cases t with
        | nil => simp [Text.squeeze, hx, hc]
        | cons y t =>
            rw [List.cons_append, List.cons_append, squeeze_cons_of_blank hx, ← List.cons_append,
              ih, squeeze_cons_of_blank hx]
            split <;> rfl
      · rw [List.cons_append, squeeze_cons_of_code (by simpa using hx), ih,
          squeeze_cons_of_code (by simpa using hx), List.cons_append]

/-- A text without blanks stays as it is in front of what is squeezed. -/
theorem squeeze_append_of_code {t : Text} (ht : ∀ c ∈ t, isBlank c = false) (u : Text) :
    Text.squeeze (t ++ u) = t ++ u.squeeze := by
  induction t with
  | nil => rfl
  | cons c t ih =>
      rw [List.cons_append, squeeze_cons_of_code (ht c List.mem_cons_self),
        ih fun c hc => ht c (List.mem_cons_of_mem _ hc), List.cons_append]

/-- A text that is not blank has words. -/
theorem words_ne_nil {t : Text} {c : Char} (hc : c ∈ t) (hblank : isBlank c = false) :
    t.words ≠ [] := by
  induction t with
  | nil => cases hc
  | cons x t ih =>
      rw [Text.words]
      split
      · rename_i hx
        rcases List.mem_cons.mp hc with rfl | hc
        · rw [hblank] at hx
          cases hx
        · exact ih hc
      · split
        · exact List.cons_ne_nil _ _
        · cases Text.words t <;> exact List.cons_ne_nil _ _

/-- A text in front of joined parts has the separator behind it. -/
theorem join_cons_of_ne {sep t : Text} {parts : List Text} (h : parts ≠ []) :
    Text.join sep (t :: parts) = t ++ (sep ++ Text.join sep parts) := by
  obtain ⟨u, parts, rfl⟩ := List.exists_cons_of_ne_nil h
  exact join_cons_cons sep t u parts

/-- A character in front of the first of joined parts is in front of them all. -/
theorem join_consHead {sep : Text} (c : Char) {parts : List Text} (h : parts ≠ []) :
    Text.join sep (Text.consHead c parts) = c :: Text.join sep parts := by
  obtain ⟨t, parts, rfl⟩ := List.exists_cons_of_ne_nil h
  cases parts with
  | nil => simp [Text.consHead, Text.join]
  | cons u parts => rw [Text.consHead, join_cons_cons, join_cons_cons, List.cons_append]

/-- **The words of a text are what is squeezed**, if the text does not end with a blank. -/
theorem squeeze_eq_join {t : Text} (h : t.getLast?.any isBlank = false) :
    t.squeeze = (if t.head?.any isBlank then [' '] else []) ++ Text.join " " t.words := by
  induction t with
  | nil => rfl
  | cons c r ih =>
      cases r with
      | nil =>
          have hc : isBlank c = false := h
          simp [Text.squeeze, Text.words, hc, Text.join]
      | cons d r =>
          rw [List.getLast?_cons_cons] at h
          have hwords : Text.words (d :: r) ≠ [] := by
            obtain ⟨x, hx⟩ :=
              Option.isSome_iff_exists.mp (List.getLast?_isSome.mpr (List.cons_ne_nil d r))
            rw [hx] at h
            exact words_ne_nil (List.mem_of_getLast? hx) h
          have ih := ih h
          rw [List.head?_cons, Option.any_some] at ih ⊢
          by_cases hc : isBlank c = true
          · rw [squeeze_cons_of_blank hc, Text.words, if_pos hc, if_pos hc, ih]
            split <;> rfl
          · rw [squeeze_cons_of_code (by simpa using hc), Text.words, if_neg hc, if_neg hc,
              List.head?_cons, Option.all_some, ih]
            split
            · rw [join_cons_of_ne hwords]
              rfl
            · rw [join_consHead c hwords]
              rfl

/-! ### Passing over the content -/

/-- The zone inside a string literal. -/
def literalZone (escaped : Bool) : Zone :=
  if escaped then .escaped '"' else .literal '"'

/-- A quote ends the masking of a literal. -/
theorem maskFrom_quote (u : Text) :
    maskFrom (.literal '"') ('"' :: u) = '"' :: maskFrom .code u := by
  cases u <;> simp [maskFrom]

/-- A character of a literal is masked. -/
theorem maskFrom_literal_cons {c : Char} (hquote : c ≠ '"') (hline : c ≠ '\n') {r : Text}
    (hr : r ≠ []) :
    maskFrom (.literal '"') (c :: r) = ' ' :: maskFrom (literalZone (c == '\\')) r := by
  obtain ⟨d, r, rfl⟩ := List.exists_cons_of_ne_nil hr
  simp [maskFrom, hquote, hline, literalZone]

/-- So is a character behind a backslash. -/
theorem maskFrom_escaped_cons {c : Char} (hline : c ≠ '\n') {r : Text} (hr : r ≠ []) :
    maskFrom (.escaped '"') (c :: r) = ' ' :: maskFrom (.literal '"') r := by
  obtain ⟨d, r, rfl⟩ := List.exists_cons_of_ne_nil hr
  simp [maskFrom, hide, hline]

section

variable {escaped : Bool} {t : Text} (h : isLiteralContent escaped t = true)

include h

/-- The content is hidden. -/
theorem maskFrom_content (hline : '\n' ∉ t) (u : Text) :
    maskFrom (literalZone escaped) (t ++ '"' :: u) =
      List.replicate t.length ' ' ++ '"' :: maskFrom .code u := by
  fun_induction isLiteralContent escaped t with
  | case1 escaped =>
      rw [Bool.not_eq_true'] at h
      rw [h]
      exact maskFrom_quote u
  | case2 c r ih =>
      rw [List.mem_cons, not_or] at hline
      rw [List.cons_append, literalZone, if_pos rfl,
        maskFrom_escaped_cons (Ne.symm hline.1) (by simp), List.length_cons, List.replicate_succ,
        List.cons_append]
      exact congrArg _ (ih h hline.2)
  | case3 c r ih =>
      rw [List.mem_cons, not_or] at hline
      rw [Bool.and_eq_true, bne_iff_ne] at h
      rw [List.cons_append, literalZone, if_neg (by decide),
        maskFrom_literal_cons h.1 (Ne.symm hline.1) (by simp), List.length_cons,
        List.replicate_succ, List.cons_append]
      exact congrArg _ (ih h.2 hline.2)

/-- No comment starts in the content. -/
theorem lineCommentStart?_content {u : Text} (hu : lineCommentStart? none false u = none) :
    lineCommentStart? (some '"') escaped (t ++ '"' :: u) = none := by
  fun_induction isLiteralContent escaped t with
  | case1 escaped =>
      rw [Bool.not_eq_true'] at h
      simp [h, lineCommentStart?, hu]
  | case2 c r ih => simp [lineCommentStart?, ih h]
  | case3 c r ih =>
      rw [Bool.and_eq_true, bne_iff_ne] at h
      have hr := ih h.2
      by_cases hc : c = '\\'
      · rw [hc] at hr
        simpa [lineCommentStart?, hc] using hr
      · rw [beq_eq_false_iff_ne.mpr hc] at hr
        simp [lineCommentStart?, hc, h.1, hr]

omit h in
/-- No comment starts where there are neither quotes nor slashes. -/
theorem lineCommentStart?_plain (ht : ∀ c ∈ t, isQuote c = false ∧ c ≠ '/') {u : Text}
    (hu : lineCommentStart? none false u = none) :
    lineCommentStart? none false (t ++ u) = none := by
  induction t with
  | nil => exact hu
  | cons c r ih =>
      obtain ⟨hquote, hslash⟩ := ht c List.mem_cons_self
      simp [lineCommentStart?, hquote, hslash, ih fun c hc => ht c (List.mem_cons_of_mem _ hc)]

/-- Nothing is split in the content. -/
theorem splitFrom_content (d : Int) (u : Text) :
    splitFrom ',' false ⟨d, some '"', escaped⟩ (t ++ '"' :: u) =
      prependHead (t ++ ['"']) (splitFrom ',' false (.atDepth d) u) := by
  fun_induction isLiteralContent escaped t with
  | case1 escaped =>
      rw [Bool.not_eq_true'] at h
      rw [h]
      rfl
  | case2 c r ih =>
      have hnext : SplitState.next false ⟨d, some '"', true⟩ c = ⟨d, some '"', false⟩ := rfl
      rw [List.cons_append, splitFrom, SplitState.cuts, hnext, ih h]
      simp [prependHead]
  | case3 c r ih =>
      rw [Bool.and_eq_true, bne_iff_ne] at h
      have hnext : SplitState.next false ⟨d, some '"', false⟩ c = ⟨d, some '"', c == '\\'⟩ := by
        by_cases hc : c = '\\' <;> simp [SplitState.next, hc, h.1]
      rw [List.cons_append, splitFrom, SplitState.cuts, hnext, ih h.2]
      simp [prependHead]

end

namespace StringLiteral

variable (v : StringLiteral)

/-- The text of a literal. -/
def text : Text :=
  v.encoding ++ '"' :: (v.content ++ ['"'])

/-- The masked copy of a literal. -/
def masked : Text :=
  v.encoding ++ '"' :: (List.replicate v.content.length ' ' ++ ['"'])

/-- What tells the encoding of a literal has nothing but characters of words. -/
theorem forall_isWord_encoding : ∀ c ∈ v.encoding, isWord c = true := by
  have hall : ∀ t ∈ encodings, ∀ c ∈ t, isWord c = true := forall_mem_mem_of_all (by decide)
  exact hall v.encoding v.encoding_mem

/-- A literal is on one line. -/
theorem lineBreak_notMem_text {x : Char} (hx : x = '\n' ∨ x = '\r') : x ∉ v.text := by
  have hbreak : isWord x = false ∧ x ≠ '"' ∧ x ∉ v.content := by
    rcases hx with rfl | rfl
    · exact ⟨by decide, by decide, v.content_isLine.1⟩
    · exact ⟨by decide, by decide, v.content_isLine.2⟩
  have hencoding : x ∉ v.encoding := fun hmem =>
    ne_of_isWord (v.forall_isWord_encoding x hmem) hbreak.1 rfl
  simp [text, hencoding, hbreak.2]

/-- The masked copy of a literal is on one line. -/
theorem newline_notMem_masked : '\n' ∉ v.masked := by
  have hencoding : '\n' ∉ v.encoding := fun hmem =>
    absurd (v.forall_isWord_encoding _ hmem) (by decide)
  simp [masked, hencoding]

/-- **The masked copy of a literal** shows its quotes, and code behind it. -/
theorem maskFrom_text (u : Text) :
    maskFrom .code (v.text ++ u) = v.masked ++ maskFrom .code u := by
  have hquote : ∀ r : Text, maskFrom .code ('"' :: r) = '"' :: maskFrom (.literal '"') r :=
    fun r => by cases r <;> simp [maskFrom, isQuote]
  rw [text, List.append_assoc, maskFrom_append_of_isBare (isBare_of_isWord v.forall_isWord_encoding)
    rfl, List.cons_append, hquote, List.append_assoc, List.singleton_append]
  rw [show Zone.literal '"' = literalZone false from rfl,
    maskFrom_content v.content_isClosed v.content_isLine.1, masked]
  simp

/-- No comment starts in a literal, and none behind it that did not start before. -/
theorem lineCommentStart?_text {u : Text} (hu : lineCommentStart? none false u = none) :
    lineCommentStart? none false (v.text ++ u) = none := by
  have hplain : ∀ c ∈ v.encoding, isQuote c = false ∧ c ≠ '/' := fun c hc =>
    ⟨isQuote_eq_false_of_isWord (v.forall_isWord_encoding c hc),
      ne_of_isWord (v.forall_isWord_encoding c hc) (by decide)⟩
  rw [text, List.append_assoc]
  refine lineCommentStart?_plain hplain ?_
  have hcontent := lineCommentStart?_content v.content_isClosed hu
  simpa [lineCommentStart?, isQuote] using hcontent

/-- **What becomes of a literal's blanks**: a run of them is one space. -/
theorem squeeze_text :
    v.text.squeeze = v.encoding ++ '"' :: (v.content.squeeze ++ ['"']) := by
  have hcode : ∀ c ∈ v.encoding, isBlank c = false := fun c hc =>
    isBlank_eq_false_of_isWord (v.forall_isWord_encoding c hc)
  rw [text, squeeze_append_of_code hcode, squeeze_cons_of_code (by decide),
    squeeze_append_cons (by decide)]
  rfl

/-- Squeezing blanks leaves a literal as it is exactly when it leaves what is in it. -/
theorem squeeze_text_eq_iff : v.text.squeeze = v.text ↔ v.content.squeeze = v.content := by
  rw [squeeze_text, text, List.append_cancel_left_eq, List.cons.injEq, List.append_cancel_right_eq]
  simp

/-- The first character of a literal is no blank. -/
theorem exists_text_eq_cons : ∃ c r, v.text = c :: r ∧ isBlank c = false := by
  cases hencoding : v.encoding with
  | nil => exact ⟨'"', _, by rw [text, hencoding]; rfl, by decide⟩
  | cons c r =>
      refine ⟨c, _, by rw [text, hencoding]; rfl, ?_⟩
      exact isBlank_eq_false_of_isWord (v.forall_isWord_encoding c (hencoding ▸ List.mem_cons_self))

/-- There are no blanks around a literal. -/
theorem trim_squeeze_text : v.text.squeeze.trim = v.text.squeeze := by
  obtain ⟨c, r, hcons, hc⟩ := v.exists_text_eq_cons
  refine Text.trim_eq_self_iff.mpr ⟨?_, ?_⟩
  · rw [hcons, squeeze_cons_of_code hc, Text.trimStart_cons_code (by simp [hc])]
  · have hconcat : v.text.squeeze = (v.encoding ++ '"' :: v.content.squeeze) ++ ['"'] := by
      simp [squeeze_text]
    rw [hconcat, Text.trimEnd, Text.dropEndWhile, List.reverse_concat,
      List.dropWhile_cons_of_neg (by decide), ← List.reverse_concat, List.reverse_reverse]

/-- Normalizing the blanks of a literal does the same. -/
theorem normalizeBlanks_text : v.text.normalizeBlanks = v.text.squeeze := by
  obtain ⟨c, r, hcons, hc⟩ := v.exists_text_eq_cons
  have hlast : v.text.getLast?.any isBlank = false := by
    have hconcat : v.text = (v.encoding ++ '"' :: v.content) ++ ['"'] := by simp [text]
    rw [hconcat, List.getLast?_concat]
    rfl
  rw [squeeze_eq_join hlast, hcons, List.head?_cons, Option.any_some, hc]
  rfl

/-- The text of a literal is not split. -/
theorem splitFrom_text (d : Int) (u : Text) :
    splitFrom ',' false (.atDepth d) (v.text ++ u) =
      prependHead v.text (splitFrom ',' false (.atDepth d) u) := by
  have hquote : ∀ r : Text, splitFrom ',' false (.atDepth d) ('"' :: r) =
      Text.consHead '"' (splitFrom ',' false ⟨d, some '"', false⟩ r) := fun _ => rfl
  rw [text, List.append_assoc, splitFrom_word v.forall_isWord_encoding, List.cons_append, hquote,
    List.append_assoc, List.singleton_append, splitFrom_content v.content_isClosed,
    prependHead_append v.encoding]
  rfl

/-- **An initializer with a literal** is read with the literal's blanks squeezed. -/
theorem parseInitializers_text {name : Text} (hname : isIdentifier name = true) :
    parseInitializers (name ++ '(' :: (v.text ++ [')'])) = [⟨name, v.text.squeeze⟩] := by
  obtain ⟨-, -, -, -, hword⟩ := isIdentifier_cons hname
  have hparts : splitFrom ',' false (.atDepth 0) (name ++ '(' :: (v.text ++ [')'])) =
      [name ++ '(' :: (v.text ++ [')'])] := by
    rw [splitFrom_word hword, splitFrom_cons_bracket (by decide),
      show (closingBracket '(').isSome = true from rfl, if_pos rfl, v.splitFrom_text,
      splitFrom_cons_bracket (by decide), show (closingBracket ')').isSome = false from rfl]
    simp [splitFrom, Text.consHead]
  obtain ⟨hne, hqualified⟩ := isQualifiedChar_of_isIdentifier hname
  have hread := initializer?_brackets hne hqualified (Or.inl ⟨rfl, rfl⟩) v.text
    (show Text.isBlank [] = true from rfl) (show Text.isBlank [] = true from rfl)
  rw [List.nil_append, List.append_nil, normalizeBlanks_text] at hread
  rw [parseInitializers, splitTopLevel, show ({} : SplitState) = .atDepth 0 from rfl, hparts,
    List.filterMap_cons_some hread, List.filterMap_nil]

end StringLiteral

end Sharpen
