import Sharpen.Decl.ParameterList
import Sharpen.Proofs.Decl.Closed
import Sharpen.Proofs.TypeKey.Spelling

/-!
# Plain Parameters and How They Are Written

A plain parameter is a row of type tokens, a name and perhaps a default value, all of which can be
written without a comment. `PlainParameter.Writes` says which texts write it: blanks stand as they
like, but for those that keep two tokens apart.

Four passes go over such a text, each with rules of its own. The part in front of the default value
means nothing to two of them, which is what `IsPassedOver` says of a text.

## Main definitions

* `PlainParameter` — a parameter that can be written without a comment; `PlainParameter.Writes` says
  how.
* `isTypeToken` — the tokens of a plain type: markers, and words that may end in template arguments;
  `const` is one of the words.
* `isParameterName`, `isDefaultValue` — the names and the default values of plain parameters.
* `IsPassedOver` — a text that means nothing to the search for a default value and to the cutting
  into blocks.

## Main results

* `isPassedOver_of_spells` — every spelling of plain type tokens and of a name is passed over.
* `isPlainToken_of_isTypeToken` — to the cutting into tokens, each of them is one token.
-/

namespace Sharpen

/-! ### Plain parameters -/

/-- The characters of the word that a type token starts with. -/
def isTypeChar (c : Char) : Bool :=
  isWord c || c == ':'

/-- The characters of template arguments, without the template brackets. -/
def isTemplateChar (c : Char) : Bool :=
  !(isQuote c || c == '[' || c == ']' || c == '(' || c == ')' || c == '/' || c == '=')

/-- Whether a text, reached inside of so many template brackets, closes them and each one that it
opens, with nothing outside of them. -/
def isTemplateFrom : Nat → Text → Bool
  | d, [] => d == 0
  | d, c :: r =>
    if c == '<' then isTemplateFrom (d + 1) r
    else if c == '>' then d != 0 && isTemplateFrom (d - 1) r
    else d != 0 && isTemplateChar c && isTemplateFrom d r

/-- The tokens of a plain type: markers, and words that may end in template arguments; `const` is
one of the words. -/
def isTypeToken (k : Text) : Bool :=
  isMarker k || (k.head?.any isTypeChar && isTemplateFrom 0 (k.dropWhile isTypeChar))

/-- The names of plain parameters: identifiers, or words of any kind, unless they have a meaning
inside of a type. -/
def isParameterName (n : Text) : Bool :=
  !n.isEmpty && n.all isWord && n != "const" && !builtinTypeWords.contains n

/-- The default values of plain parameters. -/
def isDefaultValue (v : Text) : Bool :=
  !v.isBlank && v.trim == v && isClosed v

/-- A parameter that can be written without a comment. -/
structure PlainParameter where
  type : List Text
  name : Text
  default? : Option Text
  type_ne_nil : type ≠ []
  isTypeToken_type : ∀ k ∈ type, isTypeToken k = true
  isParameterName_name : isParameterName name = true
  isDefaultValue_default : ∀ v ∈ default?, isDefaultValue v = true

/-- The text behind the name: nothing, or `=` and the default value. -/
inductive WritesDefault : Option Text → Text → Prop
  | none : WritesDefault none []
  | some {gap gap' v : Text} : gap.isBlank = true → gap'.isBlank = true →
      WritesDefault (some v) (gap ++ '=' :: (gap' ++ v))

/-- The text writes the parameter: its tokens and its name, then its default value, with blanks
around them. -/
def PlainParameter.Writes (p : PlainParameter) (t : Text) : Prop :=
  ∃ lead declaration value trail, lead.isBlank = true ∧ trail.isBlank = true ∧
    Spells (p.type ++ [p.name]) declaration ∧ WritesDefault p.default? value ∧
    t = lead ++ (declaration ++ (value ++ trail))

/-! ### What means nothing to two of the passes -/

/-- A text that neither the cutting into blocks nor the search for the default value acts on. -/
structure IsPassedOver (u : Text) : Prop where
  isClosed_append : ∀ v, isClosed (u ++ v) = isClosed v
  defaultSeparator?_append : ∀ v,
    defaultSeparator? (u ++ v) = (defaultSeparator? v).map (· + u.length)

namespace IsPassedOver

variable {u w : Text}

/-- Nothing at all is passed over. -/
theorem nil : IsPassedOver [] :=
  ⟨fun _ => rfl, fun v => by simp⟩

/-- Two texts that are passed over are so one behind the other. -/
theorem append (hu : IsPassedOver u) (hw : IsPassedOver w) : IsPassedOver (u ++ w) where
  isClosed_append v := by
    rw [List.append_assoc, hu.isClosed_append, hw.isClosed_append]
  defaultSeparator?_append v := by
    rw [List.append_assoc, hu.defaultSeparator?_append, hw.defaultSeparator?_append, Option.map_map]
    congr 1
    funext i
    simp only [Function.comp_apply, List.length_append]
    omega

end IsPassedOver

/-- The characters that some pass acts on wherever it meets them. -/
def actedOn : Text :=
  ['"', '\'', '/', '(', ')', '[', ']', '<', '>', ',', '=']

/-- A class of characters that has none of them. -/
def IsInert (p : Char → Bool) : Prop :=
  actedOn.any p = false

instance (p : Char → Bool) : Decidable (IsInert p) :=
  inferInstanceAs (Decidable (actedOn.any p = false))

/-- A character that no pass acts on is passed over. -/
theorem isPassedOver_singleton {c : Char} (hc : c ∉ actedOn) : IsPassedOver [c] := by
  simp only [actedOn, List.mem_cons, List.not_mem_nil, or_false, not_or] at hc
  have hquote : isQuote c = false := by simp [isQuote, hc]
  refine ⟨fun v => ?_, fun v => ?_⟩
  · simp [isClosed, isClosedFrom, opensComment, isBlockSeparator, BlockDepth.after, hquote, hc]
  · simp [defaultSeparator?, defaultSeparatorFrom, hquote, hc]

/-- A text of such characters is passed over. -/
theorem isPassedOver_of_forall {u : Text} (hu : ∀ c ∈ u, c ∉ actedOn) : IsPassedOver u := by
  induction u with
  | nil => exact IsPassedOver.nil
  | cons c r ih =>
      have hr := ih fun c hc => hu c (List.mem_cons_of_mem _ hc)
      exact (isPassedOver_singleton (hu c List.mem_cons_self)).append hr

/-- So is a text from an inert class of characters. -/
theorem IsInert.isPassedOver {p : Char → Bool} (hp : IsInert p) {u : Text}
    (hu : u.all p = true) : IsPassedOver u := by
  refine isPassedOver_of_forall fun c hc hacted => ?_
  exact List.any_eq_false.mp hp c hacted (List.all_eq_true.mp hu c hc)

/-- Blanks are inert. -/
theorem isInert_isBlank : IsInert isBlank := by decide

/-- So are the characters of a type. -/
theorem isInert_isTypeChar : IsInert isTypeChar := by decide

/-! ### Template arguments -/

/-- What template arguments are made of, character by character. -/
theorem isTemplateFrom_cons {d : Nat} {c : Char} {r : Text}
    (h : isTemplateFrom d (c :: r) = true) :
    (c = '<' ∧ isTemplateFrom (d + 1) r = true) ∨
    (∃ e, d = e + 1 ∧ c = '>' ∧ isTemplateFrom e r = true) ∨
    (∃ e, d = e + 1 ∧ c ≠ '<' ∧ c ≠ '>' ∧ isTemplateChar c = true ∧
      isTemplateFrom d r = true) := by
  rw [isTemplateFrom] at h
  split_ifs at h with hopen hclose
  · exact .inl ⟨by simpa using hopen, h⟩
  · simp only [Bool.and_eq_true, bne_iff_ne] at h
    obtain ⟨e, rfl⟩ := Nat.exists_eq_succ_of_ne_zero h.1
    exact .inr (.inl ⟨e, rfl, by simpa using hclose, h.2⟩)
  · simp only [Bool.and_eq_true, bne_iff_ne] at h
    obtain ⟨e, rfl⟩ := Nat.exists_eq_succ_of_ne_zero h.1.1
    exact .inr (.inr ⟨e, rfl, by simpa using hopen, by simpa using hclose, h.1.2, h.2⟩)

/-- Template arguments keep what is open to themselves. -/
theorem isClosedFrom_template {d : Nat} {u : Text} (h : isTemplateFrom d u = true) (v : Text) :
    isClosedFrom .code ⟨0, d⟩ (u ++ v) = isClosed v := by
  induction u generalizing d with
  | nil =>
      obtain rfl : d = 0 := by simpa [isTemplateFrom] using h
      rfl
  | cons c r ih =>
      rcases isTemplateFrom_cons h with
        ⟨rfl, hr⟩ | ⟨e, rfl, rfl, hr⟩ | ⟨e, rfl, hopen, hclose, hc, hr⟩
      · rw [← ih hr]
        rfl
      · rw [← ih hr]
        rfl
      · simp only [isTemplateChar, Bool.not_eq_true', Bool.or_eq_false_iff,
          beq_eq_false_iff_ne] at hc
        rw [← ih hr]
        simp [isClosedFrom, opensComment, isBlockSeparator, BlockDepth.after, hopen, hclose, hc]

/-- The search for the default value passes over them. -/
theorem defaultSeparatorFrom_template {d : Nat} {u : Text} (h : isTemplateFrom d u = true)
    (v : Text) :
    defaultSeparatorFrom d none (u ++ v) = (defaultSeparator? v).map (· + u.length) := by
  induction u generalizing d with
  | nil =>
      obtain rfl : d = 0 := by simpa [isTemplateFrom] using h
      simp [defaultSeparator?]
  | cons c r ih =>
      have hshift : (defaultSeparator? v).map (· + (c :: r).length)
          = ((defaultSeparator? v).map (· + r.length)).map (· + 1) := by
        rw [Option.map_map]
        rfl
      rw [hshift]
      rcases isTemplateFrom_cons h with
        ⟨rfl, hr⟩ | ⟨e, rfl, rfl, hr⟩ | ⟨e, rfl, hopen, hclose, hc, hr⟩
      · rw [← ih hr]
        rfl
      · have hdepth : ((e + 1 : Nat) : Int) - 1 = e := by omega
        rw [← ih hr, ← hdepth]
        rfl
      · simp only [isTemplateChar, Bool.not_eq_true', Bool.or_eq_false_iff,
          beq_eq_false_iff_ne] at hc
        rw [← ih hr]
        simp [defaultSeparatorFrom, hopen, hclose, hc]

/-- Template arguments prolong the token in front of them. -/
theorem whole_of_isTemplateFrom {d : Nat} {u : Text} (h : isTemplateFrom d u = true) :
    Whole d u := by
  induction u generalizing d with
  | nil =>
      obtain rfl : d = 0 := by simpa [isTemplateFrom] using h
      exact Whole.nil
  | cons c r ih =>
      rcases isTemplateFrom_cons h with
        ⟨rfl, hr⟩ | ⟨e, rfl, rfl, hr⟩ | ⟨e, rfl, hopen, hclose, hc, hr⟩
      · exact Whole.opens (ih hr)
      · exact Whole.closes (ih hr)
      · have hbound : c ≠ '[' := by rintro rfl; exact absurd hc (by decide)
        exact Whole.inside hopen hclose hbound (ih hr)

/-! ### Tokens -/

/-- A type token is a marker, or a word with template arguments that may be missing. -/
theorem isTypeToken_cases {k : Text} (h : isTypeToken k = true) :
    isMarker k = true ∨ ∃ w u, k = w ++ u ∧ w ≠ [] ∧ w.all isTypeChar = true ∧
      isTemplateFrom 0 u = true := by
  simp only [isTypeToken, Bool.or_eq_true, Bool.and_eq_true] at h
  refine h.imp_right fun ⟨hhead, htemplate⟩ => ⟨k.takeWhile isTypeChar, k.dropWhile isTypeChar,
    List.takeWhile_append_dropWhile.symm, ?_, List.all_takeWhile, htemplate⟩
  cases k with
  | nil => exact absurd hhead (by simp)
  | cons c r => simp [show isTypeChar c = true from hhead]

/-- A type token is passed over. -/
theorem isPassedOver_of_isTypeToken {k : Text} (h : isTypeToken k = true) : IsPassedOver k := by
  rcases isTypeToken_cases h with hmarker | ⟨w, u, rfl, -, hw, hu⟩
  · simp only [isMarker, Bool.or_eq_true, beq_iff_eq] at hmarker
    rcases hmarker with rfl | rfl <;> exact isPassedOver_singleton (by decide)
  · have htemplate : IsPassedOver u :=
      ⟨isClosedFrom_template hu, defaultSeparatorFrom_template hu⟩
    exact (isInert_isTypeChar.isPassedOver hw).append htemplate

/-- Word characters are not blank. -/
theorem isBlank_eq_false_of_isWord {c : Char} (h : isWord c = true) : isBlank c = false := by
  have hranges : ∀ r ∈ blankRanges, ∀ n ∈ List.range' r.1 (r.2 + 1 - r.1),
      isWord (Char.ofNat n) = false := by decide +kernel
  by_contra hblank
  rw [Bool.not_eq_false, isBlank, List.any_eq_true] at hblank
  obtain ⟨r, hr, hin⟩ := hblank
  simp only [Bool.and_eq_true, decide_eq_true_eq] at hin
  have hmem : c.toNat ∈ List.range' r.1 (r.2 + 1 - r.1) := by
    rw [List.mem_range'_1]
    omega
  have hword := hranges r hr _ hmem
  rw [Char.ofNat_toNat, h] at hword
  exact absurd hword (by decide)

/-- A word is whole, with or without template arguments behind it. -/
theorem whole_append {w u : Text} (hw : w.all isTypeChar = true) (hu : Whole 0 u) :
    Whole 0 (w ++ u) := by
  induction w with
  | nil => exact hu
  | cons c r ih =>
      simp only [List.all_cons, Bool.and_eq_true] at hw
      have hne : ∀ e, isTypeChar e = false → c ≠ e := fun e he heq => by
        rw [heq, he] at hw
        exact absurd hw.1 (by decide)
      have hblank : isBlank c = false := by
        have hc := hw.1
        simp only [isTypeChar, Bool.or_eq_true, beq_iff_eq] at hc
        rcases hc with hword | rfl
        · exact isBlank_eq_false_of_isWord hword
        · decide
      have hmarker : ¬ (c = '*' ∨ c = '&') := by
        rintro (heq | heq)
        · exact hne '*' (by decide) heq
        · exact hne '&' (by decide) heq
      exact Whole.outside (hne '<' (by decide)) (hne '>' (by decide)) (hne '[' (by decide)) hblank
        hmarker (ih hw.2)

/-- A type token is one token to the cutting into tokens. -/
theorem isPlainToken_of_isTypeToken {k : Text} (h : isTypeToken k = true) : IsPlainToken k := by
  rcases isTypeToken_cases h with hmarker | ⟨w, u, rfl, hne, hw, hu⟩
  · exact Or.inl hmarker
  · exact Or.inr ⟨by simp [hne], whole_append hw (whole_of_isTemplateFrom hu)⟩

/-- A name is also a type token. -/
theorem isTypeToken_of_isParameterName {n : Text} (h : isParameterName n = true) :
    isTypeToken n = true := by
  simp only [isParameterName, Bool.and_eq_true] at h
  obtain ⟨⟨⟨hne, hword⟩, -⟩, -⟩ := h
  have hall : ∀ c ∈ n, isTypeChar c = true := fun c hc => by
    rw [isTypeChar, List.all_eq_true.mp hword c hc, Bool.true_or]
  have hdrop : n.dropWhile isTypeChar = [] := List.dropWhile_eq_nil_iff.mpr hall
  cases n with
  | nil => exact absurd hne (by simp)
  | cons c r =>
      have hc := hall c List.mem_cons_self
      simp [isTypeToken, hdrop, hc, isTemplateFrom]

/-- A spelling of type tokens is passed over. -/
theorem isPassedOver_of_spells {ks : List Text} {t : Text} (h : Spells ks t)
    (hks : ∀ k ∈ ks, isTypeToken k = true) : IsPassedOver t := by
  induction h with
  | last k => exact isPassedOver_of_isTypeToken (hks k List.mem_cons_self)
  | @cons k l ks gap t hgap hsep ht ih =>
      have hk := isPassedOver_of_isTypeToken (hks k List.mem_cons_self)
      have hrest := ih fun k hk => hks k (List.mem_cons_of_mem _ hk)
      exact (hk.append (isInert_isBlank.isPassedOver hgap)).append hrest

end Sharpen
