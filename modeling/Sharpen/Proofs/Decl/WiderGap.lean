import Sharpen.Proofs.Code.StringLiteral
import Sharpen.Proofs.Decl.BaseType
import Sharpen.Proofs.Decl.InsertedComment
import Sharpen.Proofs.Decl.RoundTrip
import Sharpen.Proofs.Header.PureVirtual
import Sharpen.Proofs.TypeKey.Gathered

/-!
# The Width of a Gap

Between two tokens of a declaration it does not matter how many blanks there are, as long as there
is one. So a comment may take the place of a blank that has another blank beside it. Where it has
none, the tokens on both sides of the comment run together, for a comment is no different from
nothing.

Three things are read from the code of a parameter: its default value, its type and its name. A gap
of another width is followed through the search for the default value and through the cutting into
tokens, outside of brackets and literals, where all that counts of a gap is that it is there. Inside
of template arguments blanks may count, which is why the place must be outside.

## Main definitions

* `GapApart` — texts that differ in the blanks of one gap.
* `IsGap` — some blanks in a row.
* `Parameter.withoutDefault` — a parameter apart from its default value.
* `InDeclaration` — a place in the declaration of a parameter, outside of brackets, behind the code
  `a`.

## Main results

* `GapApart.trim`, `GapApart.typeTokens_eq`, `GapApart.baseType_eq` — what does not see the
  difference.
* `splitDefault_gap`, `GapApart.splitTypeAndName` — it stays in the type.
* `codeParameter_gap` — a gap of another width in the code of a parameter.
* `parseParameters_comment` — a comment in the place of a blank.
* `defaultSeparatorFrom_cons` — one character in the search for a default value: the search ends at
  an equals sign, or goes on from another state.
* `codeParameter_append` — a text behind the separator of a default value changes nothing but this
  value.
-/

namespace Sharpen

/-! ### Gaps -/

/-- Some blanks in a row. -/
structure IsGap (g : Text) : Prop where
  ne_nil : g ≠ []
  blanks : ∀ x ∈ g, isGapBlank x = true

/-- A gap has nothing but blanks. -/
theorem IsGap.isBlank {g : Text} (h : IsGap g) : g.isBlank = true :=
  List.all_eq_true.mpr fun x hx => isBlank_of_isGapBlank (h.blanks x hx)

/-- Two texts that are equal, or differ in the blanks of one gap that stands outside of brackets. -/
inductive GapApart : Text → Text → Prop
  | refl (t : Text) : GapApart t t
  | gap {a b g g' : Text} (ha : placeBehind a = {}) (hg : IsGap g) (hg' : IsGap g') :
      GapApart (a ++ (g ++ b)) (a ++ (g' ++ b))

/-! ### Words, blanks and characters on both sides of a gap -/

section

variable {a b g : Text}

/-- A character that is in no word divides what is changed in front of it from what is behind. -/
theorem Text.leadAndMapped_append_cons (f : Text → Text) {c : Char} (hc : isWord c = false)
    (t u : Text) : Text.leadAndMapped f (t ++ c :: u)
      = ((Text.leadAndMapped f t).1, (Text.leadAndMapped f t).2 ++ c :: u.mapWords f) := by
  induction t with
  | nil => exact Text.leadAndMapped_cons_of_not_isWord f hc u
  | cons x t ih =>
      simp only [List.cons_append, Text.leadAndMapped, ih]
      split <;> simp

/-- Words on both sides of a gap are replaced on their own. -/
theorem Text.mapWords_gap (f : Text → Text) (hg : IsGap g) :
    Text.mapWords f (a ++ (g ++ b)) = a.mapWords f ++ (g ++ b.mapWords f) := by
  obtain ⟨hne, hblanks⟩ := hg
  obtain ⟨x, g, rfl⟩ := List.exists_cons_of_ne_nil hne
  have hword : ∀ y ∈ x :: g, isWord y = false := fun y hy =>
    isWord_eq_false_of_isBlank (isBlank_of_isGapBlank (hblanks y hy))
  obtain ⟨hx, hrest⟩ := List.forall_mem_cons.mp hword
  have hgap : ∀ h : Text, (∀ y ∈ h, isWord y = false) →
      Text.mapWords f (h ++ b) = h ++ b.mapWords f := by
    intro h
    induction h with
    | nil => exact fun _ => rfl
    | cons y h ih =>
        intro hh
        obtain ⟨hy, htail⟩ := List.forall_mem_cons.mp hh
        rw [List.cons_append, Text.mapWords_cons_of_not_isWord f hy, ih htail, List.cons_append]
  rw [List.cons_append, Text.mapWords_eq, Text.leadAndMapped_append_cons f hx, hgap g hrest,
    ← List.append_assoc, ← Text.mapWords_eq, List.cons_append]

/-- Texts that are squeezed to the same, and start alike, are so behind every text. -/
theorem Text.squeeze_append_congr {t u : Text}
    (hhead : t.head?.any Sharpen.isBlank = u.head?.any Sharpen.isBlank)
    (h : t.squeeze = u.squeeze) (a : Text) : Text.squeeze (a ++ t) = Text.squeeze (a ++ u) := by
  induction a with
  | nil => exact h
  | cons c a ih =>
      have hhead' : (a ++ t).head?.any Sharpen.isBlank = (a ++ u).head?.any Sharpen.isBlank := by
        cases a with
        | nil => exact hhead
        | cons _ _ => rfl
      rw [List.cons_append, List.cons_append, Text.squeeze, Text.squeeze, ih, hhead']

/-- Squeezing a gap leaves one space. -/
theorem Text.squeeze_gap (hg : IsGap g) :
    Text.squeeze (a ++ (g ++ b)) = Text.squeeze (a ++ ' ' :: b) := by
  obtain ⟨hne, hblanks⟩ := hg
  obtain ⟨x, g, rfl⟩ := List.exists_cons_of_ne_nil hne
  have hx : Sharpen.isBlank x = true := isBlank_of_isGapBlank (hblanks x (by simp))
  have hspace : Sharpen.isBlank ' ' = true := rfl
  refine Text.squeeze_append_congr (by simp [hx, hspace]) ?_ a
  induction g generalizing x with
  | nil => rw [List.singleton_append, Text.squeeze, Text.squeeze, if_pos hx, if_pos hspace]
  | cons y g ih =>
      have hy : Sharpen.isBlank y = true := isBlank_of_isGapBlank (hblanks y (by simp))
      rw [List.cons_append, Text.squeeze, if_pos hx, if_pos (by simpa using hy)]
      exact ih y (by simp) (fun z hz => hblanks z (List.mem_cons_of_mem x hz)) hy

/-- Two ampersands with a gap between them do not stand next to each other. -/
theorem Text.hasInfix_gap (hg : IsGap g) :
    Text.hasInfix (a ++ (g ++ b)) "&&" = (a.hasInfix "&&" || b.hasInfix "&&") := by
  obtain ⟨hne, hblanks⟩ := hg
  obtain ⟨x, g, rfl⟩ := List.exists_cons_of_ne_nil hne
  have hcode : ∀ y ∈ x :: g, ¬ '&' = y := by
    rintro y hy rfl
    exact absurd (hblanks '&' hy) (by decide)
  have hgap : ∀ h : Text, (∀ y ∈ h, ¬ '&' = y) → Text.hasInfix (h ++ b) "&&" = b.hasInfix "&&" := by
    intro h
    induction h with
    | nil => exact fun _ => rfl
    | cons y h ih =>
        intro hh
        obtain ⟨hy, htail⟩ := List.forall_mem_cons.mp hh
        rw [List.cons_append, Text.hasInfix_cons, ih htail]
        simp [List.isPrefixOf, hy]
  induction a with
  | nil => exact hgap (x :: g) hcode
  | cons c a ih =>
      rw [List.cons_append, Text.hasInfix_cons, ih, Text.hasInfix_cons, Bool.or_assoc]
      cases a with
      | nil => simp [List.isPrefixOf, hcode x (by simp)]
      | cons d a => rfl

end

/-! ### The ends of a text -/

/-- Blanks in front of a text do not lead into brackets. -/
theorem placeBehind_trimStart {a : Text} (ha : placeBehind a = {}) :
    placeBehind a.trimStart = {} := by
  induction a with
  | nil => rfl
  | cons c a ih =>
      by_cases hc : Sharpen.isBlank c = true
      · rw [Text.trimStart_cons_blank hc]
        have hbracket : c ≠ '[' ∧ c ≠ '<' ∧ c ≠ '>' := by
          refine ⟨?_, ?_, ?_⟩ <;> (rintro rfl; revert hc; decide)
        rw [placeBehind, TokenState.after, List.foldl_cons,
          TokenState.next_of_ne hbracket.1 hbracket.2.1 hbracket.2.2] at ha
        exact ih ha
      · rw [Text.trimStart_cons_code hc]
        exact ha

/-! ### What does not see the width of a gap -/

namespace GapApart

variable {t t' : Text}

/-- **Trimming.** -/
theorem trim (h : GapApart t t') : GapApart t.trim t'.trim := by
  cases h with
  | refl => exact .refl _
  | @gap a b g g' ha hg hg' =>
      by_cases hblank : a.isBlank = true
      · -- All blanks in front go, the gap among them.
        have htrim : ∀ {g : Text}, IsGap g → Text.trim (a ++ (g ++ b)) = b.trim := fun hg => by
          rw [Text.trim, Text.trimStart_blank_append hblank, Text.trimStart_blank_append hg.isBlank]
          rfl
        rw [htrim hg, htrim hg']
        exact .refl _
      rw [Bool.not_eq_true] at hblank
      by_cases hblank' : b.isBlank = true
      · have htrim : ∀ {g : Text}, IsGap g → Text.trim (a ++ (g ++ b)) = a.trim := fun hg => by
          rw [Text.trim, Text.trimStart_append_of_isBlank_eq_false hblank, ← List.append_assoc,
            Text.trimEnd_append_blank hblank', Text.trimEnd_append_blank hg.isBlank]
          rfl
        rw [htrim hg, htrim hg']
        exact .refl _
      rw [Bool.not_eq_true] at hblank'
      have htrim : ∀ g : Text,
          Text.trim (a ++ (g ++ b)) = a.trimStart ++ (g ++ b.trimEnd) := fun g => by
        rw [Text.trim, Text.trimStart_append_of_isBlank_eq_false hblank, ← List.append_assoc,
          Text.trimEnd_append_of_isBlank_eq_false hblank', List.append_assoc]
      rw [htrim g, htrim g']
      exact .gap (placeBehind_trimStart ha) hg hg'

/-- **Tokens.** -/
theorem typeTokens_eq (h : GapApart t t') : typeTokens t = typeTokens t' := by
  cases h with
  | refl => rfl
  | @gap a b g g' ha hg hg' =>
      obtain ⟨ended, current, hgathers⟩ := exists_gathers a
      rw [hgathers.typeTokens_append, hgathers.typeTokens_append, ha,
        typeTokensFrom_blanks_outside hg.isBlank hg.ne_nil,
        typeTokensFrom_blanks_outside hg'.isBlank hg'.ne_nil]

/-- Texts that are a gap apart have one key. -/
theorem typeKey_eq (h : GapApart t t') : typeKey t = typeKey t' := by
  rw [typeKey, typeKey, h.typeTokens_eq]

/-- The marks of pointers and references. -/
theorem contains_eq (h : GapApart t t') {c : Char} (hc : isGapBlank c = false) :
    t.contains c = t'.contains c := by
  cases h with
  | refl => rfl
  | gap ha hg hg' =>
      have hnot : ∀ {g : Text}, IsGap g → c ∉ g := fun hg hmem => by
        rw [hg.blanks c hmem] at hc
        cases hc
      simp [hnot hg, hnot hg']

/-- Both have the mark of a reference to a value, or neither has. -/
theorem hasInfix_eq (h : GapApart t t') : t.hasInfix "&&" = t'.hasInfix "&&" := by
  cases h with
  | refl => rfl
  | gap _ hg hg' => rw [Text.hasInfix_gap hg, Text.hasInfix_gap hg']

/-- **The base type.** -/
theorem baseType_eq (h : GapApart t t') (isArray : Bool) :
    baseType t isArray = baseType t' isArray := by
  cases h with
  | refl => rfl
  | @gap a b g g' ha hg hg' =>
      have hbare : ∀ {g : Text}, IsGap g →
          bareType (a ++ (g ++ b)) = bareType a ++ (g ++ bareType b) := by
        intro g hg
        have hkept : g.filter (fun c => c != '&' && c != '*') = g := by
          refine List.filter_eq_self.mpr fun c hc => ?_
          rcases isGapBlank_iff.mp (hg.blanks c hc) with rfl | rfl | rfl | rfl <;> rfl
        rw [bareType, Text.replaceWord, Text.mapWords_gap _ hg, List.filter_append,
          List.filter_append, hkept]
        rfl
      change Text.trim (Text.squeeze (bareType _)) ++ _ = Text.trim (Text.squeeze (bareType _)) ++ _
      rw [hbare hg, hbare hg', Text.squeeze_gap hg, Text.squeeze_gap hg']

end GapApart

/-! ### The parameter -/

/-- **Type and name.** The type is the trimmed text, or put together from its tokens. -/
theorem GapApart.splitTypeAndName {t t' : Text} (h : GapApart t t') :
    (splitTypeAndName t).name = (splitTypeAndName t').name ∧
    (splitTypeAndName t).isArray = (splitTypeAndName t').isArray ∧
    GapApart (splitTypeAndName t).type (splitTypeAndName t').type := by
  have htrim := h.trim
  simp only [Sharpen.splitTypeAndName, htrim.typeTokens_eq]
  split
  · exact ⟨rfl, rfl, htrim⟩
  · split
    · exact ⟨rfl, rfl, htrim⟩
    · split
      · exact ⟨rfl, rfl, .refl _⟩
      · exact ⟨rfl, rfl, .refl _⟩
      · split <;> exact ⟨rfl, rfl, .refl _⟩

/-- **One character** in the search for a default value: the search ends at an equals sign, or goes
on from another state. -/
theorem defaultSeparatorFrom_cons (depth : Int) (quote : Option Char) (c : Char) :
    (c = '=' ∧ ∀ r, defaultSeparatorFrom depth quote (c :: r) = some 0) ∨
    ∃ (depth' : Int) (quote' : Option Char),
      ((∀ q ∈ quote, isQuote q = true) → ∀ q ∈ quote', isQuote q = true) ∧
      ∀ r, defaultSeparatorFrom depth quote (c :: r)
        = (defaultSeparatorFrom depth' quote' r).map (· + 1) := by
  cases quote with
  | some q =>
      refine .inr ⟨depth, if c == q then none else some q, fun hquote x hx => ?_, fun r => by
        rw [defaultSeparatorFrom]⟩
      split at hx
      · cases hx
      · exact hquote x hx
  | none =>
      by_cases hc : isQuote c = true
      · exact .inr ⟨depth, some c, fun _ => by simpa using hc, fun r => by
          rw [defaultSeparatorFrom, if_pos hc]⟩
      by_cases hopen : (c == '(' || c == '<' || c == '[') = true
      · exact .inr ⟨depth + 1, none, id, fun r => by
          rw [defaultSeparatorFrom, if_neg hc, if_pos hopen]⟩
      by_cases hclose : (c == ')' || c == '>' || c == ']') = true
      · exact .inr ⟨depth - 1, none, id, fun r => by
          rw [defaultSeparatorFrom, if_neg hc, if_neg hopen, if_pos hclose]⟩
      by_cases hequals : (c == '=' && depth == 0) = true
      · obtain ⟨rfl, -⟩ : c = '=' ∧ depth = 0 := by simpa using hequals
        exact .inl ⟨rfl, fun r => by
          rw [defaultSeparatorFrom, if_neg hc, if_neg hopen, if_neg hclose, if_pos hequals]⟩
      · exact .inr ⟨depth, none, id, fun r => by
          rw [defaultSeparatorFrom, if_neg hc, if_neg hopen, if_neg hclose, if_neg hequals]⟩

/-- Behind a text without a separator in front of a default value, the search goes on from its
state. -/
theorem exists_defaultSeparatorFrom_append {depth : Int} {quote : Option Char} {a : Text}
    (h : defaultSeparatorFrom depth quote a = none) (hquote : ∀ q ∈ quote, isQuote q = true) :
    ∃ (depth' : Int) (quote' : Option Char), (∀ q ∈ quote', isQuote q = true) ∧
      ∀ w, defaultSeparatorFrom depth quote (a ++ w)
        = (defaultSeparatorFrom depth' quote' w).map (· + a.length) := by
  induction a generalizing depth quote with
  | nil => exact ⟨depth, quote, hquote, fun w => by simp⟩
  | cons c a ih =>
      obtain ⟨-, hstop⟩ | ⟨depth₁, quote₁, hquote₁, hstep⟩ :=
        defaultSeparatorFrom_cons depth quote c
      · rw [hstop] at h
        cases h
      · rw [hstep, Option.map_eq_none_iff] at h
        obtain ⟨depth', quote', hquote', hrest⟩ := ih h (hquote₁ hquote)
        refine ⟨depth', quote', hquote', fun w => ?_⟩
        rw [List.cons_append, hstep, hrest, Option.map_map]
        rfl

/-- The search passes over a gap. -/
theorem defaultSeparatorFrom_gap {depth : Int} {quote : Option Char}
    (hquote : ∀ q ∈ quote, isQuote q = true) {g : Text} (hg : ∀ x ∈ g, isGapBlank x = true)
    (w : Text) :
    defaultSeparatorFrom depth quote (g ++ w)
      = (defaultSeparatorFrom depth quote w).map (· + g.length) := by
  induction g with
  | nil => simp
  | cons x g ih =>
      obtain ⟨hx, htail⟩ := List.forall_mem_cons.mp hg
      have hstep : defaultSeparatorFrom depth quote (x :: (g ++ w))
          = (defaultSeparatorFrom depth quote (g ++ w)).map (· + 1) := by
        cases quote with
        | none => rcases isGapBlank_iff.mp hx with rfl | rfl | rfl | rfl <;> rfl
        | some q =>
            have hne : ¬ (x == q) = true := by
              rw [beq_iff_eq]
              rintro rfl
              have hq := hquote x rfl
              rcases isGapBlank_iff.mp hx with rfl | rfl | rfl | rfl <;> cases hq
            rw [defaultSeparatorFrom, if_neg hne]
      rw [List.cons_append, hstep, ih htail, Option.map_map]
      rfl

/-- A text in which the search ends has the separator there, and the search ends there whatever
comes later. -/
theorem exists_of_defaultSeparatorFrom_eq_some {depth : Int} {quote : Option Char} {a : Text}
    {i : Nat} (h : defaultSeparatorFrom depth quote a = some i) :
    ∃ t r, a = t ++ '=' :: r ∧ t.length = i ∧
      ∀ w, defaultSeparatorFrom depth quote (t ++ '=' :: w) = some i := by
  induction a generalizing depth quote i with
  | nil =>
      rw [defaultSeparatorFrom] at h
      cases h
  | cons c a ih =>
      obtain ⟨rfl, hstop⟩ | ⟨depth', quote', -, hstep⟩ := defaultSeparatorFrom_cons depth quote c
      · rw [hstop] at h
        obtain rfl := Option.some.inj h
        exact ⟨[], a, rfl, rfl, hstop⟩
      · rw [hstep] at h
        obtain ⟨j, hj, rfl⟩ := Option.map_eq_some_iff.mp h
        obtain ⟨t, r, rfl, ht, hfind⟩ := ih hj
        refine ⟨c :: t, r, rfl, by simp [ht], fun w => ?_⟩
        rw [List.cons_append, hstep, hfind]
        rfl

/-- A declaration is divided at the separator of its default, or not at all. -/
theorem splitDefault_eq_match (t : Text) :
    splitDefault t = match defaultSeparator? (t.dropEndWhile isTrailing) with
      | some i => (Text.trim ((t.dropEndWhile isTrailing).take i),
          some (Text.trim ((t.dropEndWhile isTrailing).drop (i + 1))))
      | none => (t.dropEndWhile isTrailing, none) :=
  rfl

/-- **Behind the separator** of a default value the declaration does not change. -/
theorem splitDefault_append {a : Text} {i : Nat} (ha : defaultSeparator? a = some i) (w : Text) :
    (splitDefault (a ++ w)).1 = Text.trim (a.take i) := by
  obtain ⟨t, r, rfl, rfl, hfind⟩ := exists_of_defaultSeparatorFrom_eq_some ha
  obtain ⟨rest, hdrop⟩ : ∃ rest,
      Text.dropEndWhile isTrailing (t ++ '=' :: r ++ w) = t ++ '=' :: rest := by
    have hsplit : t ++ '=' :: r ++ w = (t ++ ['=']) ++ (r ++ w) := by simp
    rw [hsplit, Text.dropEndWhile_append_eq_ite, Text.dropEndWhile_concat rfl]
    split
    · exact ⟨[], rfl⟩
    · exact ⟨Text.dropEndWhile isTrailing (r ++ w), by simp⟩
  rw [splitDefault_eq_match, hdrop, defaultSeparator?, hfind]
  simp only [List.take_left]

/-- **Declaration and default value** on both sides of a gap in the declaration. -/
theorem splitDefault_gap {a b g g' : Text} (ha : defaultSeparator? a = none)
    (hplace : placeBehind a = {}) (hg : IsGap g) (hg' : IsGap g') :
    (splitDefault (a ++ (g ++ b))).2 = (splitDefault (a ++ (g' ++ b))).2 ∧
      GapApart (splitDefault (a ++ (g ++ b))).1 (splitDefault (a ++ (g' ++ b))).1 := by
  obtain ⟨depth, quote, hquote, happend⟩ := exists_defaultSeparatorFrom_append ha (by simp)
  have hends : ∀ {g : Text}, IsGap g → g.all isTrailing = true := fun {g} hg =>
    List.all_eq_true.mpr fun x hx => by
      rcases isGapBlank_iff.mp (hg.blanks x hx) with rfl | rfl | rfl | rfl <;> rfl
  by_cases hb : b.all isTrailing = true
  · -- The gap is dropped with all that follows it.
    have hdrop : ∀ {g : Text}, IsGap g →
        Text.dropEndWhile isTrailing (a ++ (g ++ b)) = a.dropEndWhile isTrailing := fun hg => by
      rw [Text.dropEndWhile_append_eq_ite, List.all_append, hends hg, hb]
      rfl
    rw [splitDefault_eq_match, splitDefault_eq_match, hdrop hg, hdrop hg']
    exact ⟨rfl, .refl _⟩
  · have hdrop : ∀ {g : Text}, IsGap g → Text.dropEndWhile isTrailing (a ++ (g ++ b))
        = a ++ (g ++ b.dropEndWhile isTrailing) := fun {g} hg => by
      rw [Text.dropEndWhile_append_eq_ite, Text.dropEndWhile_append_eq_ite, List.all_append,
        hends hg, if_neg hb]
      simp only [Bool.not_eq_true] at hb
      rw [hb]
      rfl
    have hfind : ∀ {g : Text}, IsGap g → ∀ w, defaultSeparator? (a ++ (g ++ w))
        = ((defaultSeparatorFrom depth quote w).map (· + g.length)).map (· + a.length) :=
      fun hg w => by rw [defaultSeparator?, happend, defaultSeparatorFrom_gap hquote hg.blanks]
    rw [splitDefault_eq_match, splitDefault_eq_match, hdrop hg, hdrop hg', hfind hg, hfind hg']
    generalize b.dropEndWhile isTrailing = b
    cases defaultSeparatorFrom depth quote b with
    | none => exact ⟨rfl, .gap hplace hg hg'⟩
    | some i =>
        have htake : ∀ g : Text, (a ++ (g ++ b)).take (i + g.length + a.length)
            = a ++ (g ++ b.take i) := fun g => by
          rw [show i + g.length + a.length = a.length + (g.length + i) by omega,
            List.take_length_add_append, List.take_length_add_append]
        have hdrop : ∀ g : Text, (a ++ (g ++ b)).drop (i + g.length + a.length + 1)
            = b.drop (i + 1) := fun g => by
          rw [show i + g.length + a.length + 1 = a.length + (g.length + (i + 1)) by omega,
            List.drop_length_add_append, List.drop_length_add_append]
        simp only [Option.map_some, htake, hdrop, true_and]
        exact (GapApart.gap hplace hg hg').trim

/-- **A gap of another width** in the declaration of a parameter. -/
theorem codeParameter_gap {a b g g' : Text} (ha : defaultSeparator? a = none)
    (hplace : placeBehind a = {}) (hg : IsGap g) (hg' : IsGap g') :
    codeParameter (a ++ (g ++ b)) = codeParameter (a ++ (g' ++ b)) := by
  obtain ⟨hdefault, hdeclaration⟩ := splitDefault_gap (b := b) ha hplace hg hg'
  obtain ⟨hname, harray, htype⟩ := hdeclaration.splitTypeAndName
  simp only [codeParameter, hdefault, hname, harray, htype.baseType_eq, htype.typeTokens_eq,
    htype.typeKey_eq, htype.hasInfix_eq, htype.contains_eq (show isGapBlank '*' = false from rfl),
    htype.contains_eq (show isGapBlank '&' = false from rfl)]

/-- A parameter apart from its default value. -/
def Parameter.withoutDefault (p : Parameter) : Parameter :=
  { p with default? := none }

/-- **A text behind the separator** of a default value changes nothing but this value. -/
theorem codeParameter_append {a : Text} {i : Nat} (ha : defaultSeparator? a = some i)
    (w w' : Text) :
    (codeParameter (a ++ w)).withoutDefault = (codeParameter (a ++ w')).withoutDefault := by
  simp only [codeParameter, Parameter.withoutDefault, splitDefault_append ha]

/-! ### A comment in the place of a blank -/

/-- A place in the declaration of a parameter, outside of brackets, behind the code `a`. -/
structure InDeclaration (a : Text) : Prop where
  noDefault : defaultSeparator? a = none
  outside : placeBehind a = {}

/-- In front of the blank that a place is behind, the declaration is reached too. -/
theorem InDeclaration.of_concat {a : Text} {y : Char} (h : InDeclaration (a ++ [y]))
    (hy : isGapBlank y = true) : InDeclaration a where
  noDefault := by
    by_contra hsome
    obtain ⟨i, hi⟩ := Option.ne_none_iff_exists'.mp hsome
    obtain ⟨t, r, rfl, -, hfind⟩ := exists_of_defaultSeparatorFrom_eq_some hi
    have hnone := h.noDefault
    rw [List.append_assoc, List.cons_append, defaultSeparator?, hfind] at hnone
    cases hnone
  outside := by
    have hnext : (placeBehind a).next y = placeBehind a := by
      rcases isGapBlank_iff.mp hy with rfl | rfl | rfl | rfl <;> simp [TokenState.next]
    rw [← hnext, ← placeBehind_concat]
    exact h.outside

/-- A blank beside another one in the declaration of a parameter. -/
theorem ParameterPlace.map_bare_blank {u p : Text} {d : BlockDepth} (h : ParameterPlace u p d)
    (hp : InDeclaration (uncommented p)) {x : Char} (hx : isGapBlank x = true) {v : Text}
    (hbeside : v.head?.any isGapBlank = true ∨ (uncommented p).getLast?.any isGapBlank = true) :
    (parseParameters (u ++ v)).map Parameter.bare
      = (parseParameters (u ++ x :: v)).map Parameter.bare := by
  rcases hbeside with hv | hlast
  · obtain ⟨y, v, rfl, hy⟩ : ∃ y r, v = y :: r ∧ isGapBlank y = true := by
      cases v with
      | nil => cases hv
      | cons y v => exact ⟨y, v, rfl, hv⟩
    have hone : ∀ z ∈ [y], isGapBlank z = true := by simpa using hy
    have htwo : ∀ z ∈ [x, y], isGapBlank z = true := by simpa using ⟨hx, hy⟩
    have hwider : ∀ t, codeParameter (uncommented p ++ (uncommented [y] ++ t))
        = codeParameter (uncommented p ++ (uncommented [x, y] ++ t)) := fun t => by
      rw [uncommented_gap hone, uncommented_gap htwo]
      exact codeParameter_gap hp.noDefault hp.outside ⟨by simp, hone⟩ ⟨by simp, htwo⟩
    simpa using h.map_parseParameters_congr (f := id) (by simp) (stays_gap hone d)
      (stays_gap htwo d) hwider v
  · obtain ⟨a, y, hcode, hy⟩ : ∃ a y, uncommented p = a ++ [y] ∧ isGapBlank y = true := by
      cases hget : (uncommented p).getLast? with
      | none =>
          rw [hget] at hlast
          cases hlast
      | some y =>
          rw [hget] at hlast
          obtain ⟨a, ha⟩ := List.getLast?_eq_some_iff.mp hget
          exact ⟨a, y, ha, hlast⟩
    have hone : ∀ z ∈ [x], isGapBlank z = true := by simpa using hx
    have hshort : IsGap [y] := ⟨by simp, by simpa using hy⟩
    have hlong : IsGap [y, x] := ⟨by simp, by simpa using ⟨hy, hx⟩⟩
    rw [hcode] at hp
    obtain ⟨hnone, hout⟩ := hp.of_concat hy
    have hwider : ∀ t, codeParameter (uncommented p ++ (uncommented [] ++ t))
        = codeParameter (uncommented p ++ (uncommented [x] ++ t)) := fun t => by
      have hgap := codeParameter_gap (b := t) hnone hout hshort hlong
      rw [uncommented_gap hone, uncommented_gap (g := []) (by simp), hcode]
      simpa using hgap
    simpa using h.map_parseParameters_congr (f := id) (by simp) (stays_nil d) (stays_gap hone d)
      hwider v

/-- Whether a list is the one that stands for no parameters does not depend on default values. -/
theorem isVoidList_map_withoutDefault (ps : List Parameter) :
    isVoidList (ps.map Parameter.withoutDefault) = isVoidList ps := by
  cases ps with
  | nil => rfl
  | cons p r => cases r <;> rfl

/-- **A comment in the place of a blank.** The list says what it says with nothing in this place. So
where another blank stands beside this one in the declaration of a parameter, outside of brackets,
the comment is no different from the blank, and behind the separator of a default value it makes a
difference to this value alone. -/
theorem parseParameters_comment {u p c : Text} {d : BlockDepth} (hplace : ParameterPlace u p d)
    (hc : c.hasInfix "*/" = false) (hslash : c.head? ≠ some '/') {x : Char}
    (hx : isGapBlank x = true) (v : Text) :
    (parseParameters (u ++ (commentText c ++ v))).map Parameter.bare
      = (parseParameters (u ++ v)).map Parameter.bare ∧
    (InDeclaration (uncommented p) →
      v.head?.any isGapBlank = true ∨ (uncommented p).getLast?.any isGapBlank = true →
      (parseParameters (u ++ (commentText c ++ v))).map Parameter.bare
        = (parseParameters (u ++ x :: v)).map Parameter.bare) ∧
    ((defaultSeparator? (uncommented p)).isSome = true →
      ((parseParameters (u ++ (commentText c ++ v))).map Parameter.bare).map
          Parameter.withoutDefault
        = ((parseParameters (u ++ x :: v)).map Parameter.bare).map Parameter.withoutDefault) := by
  have hnothing := hplace.map_bare_comment hc hslash v
  refine ⟨hnothing, fun hp hbeside => hnothing.trans (hplace.map_bare_blank hp hx hbeside), ?_⟩
  intro hsome
  obtain ⟨i, hi⟩ := Option.isSome_iff_exists.mp hsome
  have hone : ∀ z ∈ [x], isGapBlank z = true := by simpa using hx
  exact hplace.map_parseParameters_congr isVoidList_map_withoutDefault
    (stays_comment hc hslash d) (stays_gap hone d) (fun t => codeParameter_append hi _ _) v

/-- A comment beside a blank behind the type of a second parameter, and one in a default value. -/
theorem parseParameters_comment_second :
    (ParameterPlace "map<int, int> m, const CString" " const CString" {} ∧
      ParameterPlace "int n = 1" "int n = 1" {} ∧ Text.hasInfix " path " "*/" = false ∧
      List.head? " path " ≠ some '/' ∧ isGapBlank ' ' = true) ∧
    (InDeclaration (uncommented " const CString") ∧
      (parseParameters ("map<int, int> m, const CString" ++ (commentText " path " ++ " & s"))).map
          Parameter.bare
        = (parseParameters ("map<int, int> m, const CString" ++ ' ' :: " & s")).map
          Parameter.bare) ∧
    ((defaultSeparator? (uncommented "int n = 1")).isSome = true ∧
      ((parseParameters ("int n = 1" ++ (commentText " path " ++ "+ 2"))).map
          Parameter.bare).map Parameter.withoutDefault
        = ((parseParameters ("int n = 1" ++ ' ' :: "+ 2")).map Parameter.bare).map
          Parameter.withoutDefault) := by
  have hclaim : (claimTrailing " const CString").rest = " const CString" := by decide
  have hsecond : ParameterPlace "map<int, int> m, const CString" " const CString" {} :=
    .next (c := "map<int, int> m") (r := " const CString") (by decide)
      (by rw [hclaim]; exact .first (by decide) (by decide))
  have hdefault : ParameterPlace "int n = 1" "int n = 1" {} := .first (by decide) (by decide)
  have hc : Text.hasInfix " path " "*/" = false := by decide
  have hslash : List.head? " path " ≠ some '/' := by decide
  have hdeclaration : InDeclaration (uncommented " const CString") := ⟨by decide, by decide⟩
  obtain ⟨-, hbeside, -⟩ := parseParameters_comment hsecond hc hslash (x := ' ') rfl " & s"
  obtain ⟨-, -, hvalue⟩ := parseParameters_comment hdefault hc hslash (x := ' ') rfl "+ 2"
  have hsome : (defaultSeparator? (uncommented "int n = 1")).isSome = true := by decide
  exact ⟨⟨hsecond, hdefault, hc, hslash, rfl⟩, ⟨hdeclaration, hbeside hdeclaration (.inl rfl)⟩,
    hsome, hvalue hsome⟩

/-- A comment is not always like the blank whose place it takes: in `int a` it makes one word of the
type and the name. -/
theorem not_forall_comment_blank :
    ¬ ∀ (u p c v : Text) (d : BlockDepth) (x : Char), ParameterPlace u p d →
      c.hasInfix "*/" = false → c.head? ≠ some '/' → isGapBlank x = true →
      (parseParameters (u ++ (commentText c ++ v))).map Parameter.bare
        = (parseParameters (u ++ x :: v)).map Parameter.bare := by
  intro h
  have hplace : ParameterPlace "int" "int" {} := .first (by decide) (by decide)
  exact absurd (h "int" "int" "c" "a" {} ' ' hplace (by decide) (by decide) rfl) (by decide +kernel)

end Sharpen
