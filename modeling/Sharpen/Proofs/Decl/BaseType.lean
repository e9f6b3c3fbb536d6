import Mathlib.Data.List.Infix
import Sharpen.Proofs.Decl.Conserved
import Sharpen.Proofs.Decl.PlainParameter
import Sharpen.Proofs.TypeKey.Respacing

/-!
# The Base Type of a Parameter

The base type of a parameter is its type without `const`, `*` and `&`, wherever they stand. Words
end where tokens do, so what is left of a type is what is left of its tokens, one by one: a token
keeps its place, and it is whole there exactly if it has none of the three in it.

Words are replaced in the text of a type, while tokens are what the rest of the program goes by. The
two fit together because a token ends only where a word does: what replacing words does to a text
can be followed character by character together with the cutting into tokens, which `MapsAlike`
does. The two marks are dropped from what is left, so the exact statement is about the characters
that are not blank.

## Main definitions

* `mappedTokens` — the characters that are not blank of a row of tokens whose words are replaced.
* `MapsAlike` — what replacing words does to the text that a token goes on with, and to the tokens
  behind: both go on with the same word.
* `Shrinks` — what replacing words does to the length of a text whose words are replaced but the one
  that it starts with.
* `bareType` — a type without `const`, `*` and `&`, before its spacing is settled.
* `IsBare` — a text without stars, ampersands and the word `const`.

## Main results

* `solid_mapWords` — replacing words in a type is replacing them in its tokens.
* `solid_typeTokens` — the tokens of a type have all its characters that are not blank.
* `solid_baseType` — the base type, token by token.
* `solid_bareType_eq_iff` — which tokens are left whole.
* `mapsAlike_typeTokensFrom` — the whole pass: from every state, the words of the tokens are those
  of the text.
* `solid_replaceWord_eq_iff` — taking a word out of a text leaves it as it is if the word is not in
  it, and leaves less if it is.
-/

namespace Sharpen

/-! ### Words and tokens -/

/-- A blank is no character of a word. -/
theorem isWord_eq_false_of_isBlank {c : Char} (h : isBlank c = true) : isWord c = false := by
  by_contra hword
  rw [isBlank_eq_false_of_isWord (by simpa using hword)] at h
  cases h

section

variable (f : Text → Text)

/-- Changing the words of a text changes the one that it starts with and those behind it. -/
theorem Text.mapWords_eq (t : Text) :
    t.mapWords f = Text.mapWord f (Text.leadAndMapped f t).1 ++ (Text.leadAndMapped f t).2 :=
  rfl

/-- A character that is in no word parts the text in front of it from the text behind. -/
theorem Text.leadAndMapped_cons_of_not_isWord {c : Char} (hc : isWord c = false) (t : Text) :
    Text.leadAndMapped f (c :: t) = ([], c :: t.mapWords f) := by
  rw [Text.leadAndMapped]
  simp [hc, Text.mapWords_eq]

/-- A character of a word is part of the word that the text starts with. -/
theorem Text.leadAndMapped_cons_of_isWord {c : Char} (hc : isWord c = true) (t : Text) :
    Text.leadAndMapped f (c :: t)
      = (c :: (Text.leadAndMapped f t).1, (Text.leadAndMapped f t).2) := by
  rw [Text.leadAndMapped]
  simp [hc]

/-- Any other character stays, and the words behind it are changed. -/
theorem Text.mapWords_cons_of_not_isWord {c : Char} (hc : isWord c = false) (t : Text) :
    Text.mapWords f (c :: t) = c :: t.mapWords f := by
  rw [Text.mapWords_eq, Text.leadAndMapped_cons_of_not_isWord f hc]
  rfl

/-- The characters that are not blank of a row of tokens whose words are replaced. -/
def mappedTokens (tokens : List Text) : Text :=
  tokens.flatMap fun k => (k.mapWords f).solid

theorem mappedTokens_cons (k : Text) (tokens : List Text) :
    mappedTokens f (k :: tokens) = (k.mapWords f).solid ++ mappedTokens f tokens :=
  rfl

/-- A token that is put with others is changed with them. -/
theorem mappedTokens_flushToken (token : Text) (tokens : List Text) :
    mappedTokens f (flushToken token tokens)
      = (token.mapWords f).solid ++ mappedTokens f tokens := by
  unfold flushToken
  split
  · rename_i hnil
    rw [List.isEmpty_iff.mp hnil]
    rfl
  · rfl

/-- What replacing words does to the text that a token goes on with, and to the tokens behind: both
go on with the same word. -/
structure MapsAlike (t : Text) (p : Text × List Text) : Prop where
  lead : (Text.leadAndMapped f t).1 = (Text.leadAndMapped f p.1).1
  rest : (Text.leadAndMapped f t).2.solid = (Text.leadAndMapped f p.1).2.solid ++ mappedTokens f p.2

variable {f} {t : Text} {p : Text × List Text} {c : Char}

/-- Changing the words of a text is changing those of its tokens, apart from blanks. -/
theorem MapsAlike.solid_mapWords (h : MapsAlike f t p) :
    (t.mapWords f).solid = (p.1.mapWords f).solid ++ mappedTokens f p.2 := by
  rw [Text.mapWords_eq, Text.mapWords_eq, Text.solid_append, Text.solid_append, h.lead, h.rest,
    List.append_assoc]

/-- A character that goes to the token. -/
theorem MapsAlike.prolong (h : MapsAlike f t p) (c : Char) :
    MapsAlike f (c :: t) (c :: p.1, p.2) := by
  by_cases hc : isWord c = true
  · constructor
    · simp only [Text.leadAndMapped_cons_of_isWord f hc, h.lead]
    · simp only [Text.leadAndMapped_cons_of_isWord f hc, h.rest]
  · rw [Bool.not_eq_true] at hc
    constructor
    · simp only [Text.leadAndMapped_cons_of_not_isWord f hc]
    · simp only [Text.leadAndMapped_cons_of_not_isWord f hc]
      rw [Text.solid_cons, h.solid_mapWords, Text.solid_cons c (p.1.mapWords f), List.append_assoc]

/-- A character in no word that ends the token behind it. -/
theorem MapsAlike.part (h : MapsAlike f t p) (hc : isWord c = false) {q : Text × List Text}
    (hlead : (Text.leadAndMapped f q.1).1 = [])
    (hrest : (Text.leadAndMapped f q.1).2.solid ++ mappedTokens f q.2
      = Text.solid [c] ++ ((p.1.mapWords f).solid ++ mappedTokens f p.2)) :
    MapsAlike f (c :: t) q where
  lead := by rw [Text.leadAndMapped_cons_of_not_isWord f hc, hlead]
  rest := by
    rw [Text.leadAndMapped_cons_of_not_isWord f hc, hrest, ← h.solid_mapWords, Text.solid_cons]

/-- One more character in front. A bracket or a marker is in no word, so it is replaced on its own.
-/
theorem MapsAlike.put (h : MapsAlike f t p) (s : TokenState) (c : Char) :
    MapsAlike f (c :: t) (s.put c p) := by
  have hcons : ∀ {c : Char} (u : Text), isWord c = false →
      (Text.mapWords f (c :: u)).solid = Text.solid [c] ++ (u.mapWords f).solid := by
    intro c u hc
    rw [Text.mapWords_cons_of_not_isWord f hc, Text.solid_cons]
  rw [TokenState.put]
  split_ifs with hopen harray hclose hangle hblank hmarker
  · obtain ⟨rfl, -⟩ : c = '[' ∧ s.angles = 0 := by simpa using hopen
    refine h.part (by decide) rfl ?_
    rw [mappedTokens_cons, hcons _ (by decide), List.append_assoc]
    rfl
  · obtain rfl : c = ']' := by simpa using hclose
    refine h.part (by decide) rfl ?_
    rw [mappedTokens_flushToken]
    rfl
  · exact h.prolong c
  · exact h.prolong c
  · refine h.part (isWord_eq_false_of_isBlank hblank) rfl ?_
    rw [mappedTokens_flushToken, Text.solid_cons_of_blank hblank]
    rfl
  · have hc : isWord c = false := by
      have hmarker : c = '*' ∨ c = '&' := by simpa using hmarker
      rcases hmarker with rfl | rfl <;> decide
    refine h.part hc rfl ?_
    rw [mappedTokens_cons, mappedTokens_flushToken, hcons _ hc]
    simp [Text.leadAndMapped, Text.mapWords, Text.mapWord]
  · exact h.prolong c

/-- **The whole pass**: from every state, the words of the tokens are those of the text. -/
theorem mapsAlike_typeTokensFrom (f : Text → Text) (s : TokenState) (t : Text) :
    MapsAlike f t (typeTokensFrom s t) := by
  induction t generalizing s with
  | nil => exact ⟨rfl, rfl⟩
  | cons c r ih =>
      rw [typeTokensFrom_cons]
      exact (ih (s.next c)).put s c

end

/-- **Replacing words in a type is replacing them in its tokens.** -/
theorem solid_mapWords (f : Text → Text) (t : Text) :
    (t.mapWords f).solid = (typeTokens t).flatMap fun k => (k.mapWords f).solid := by
  have hpass := (mapsAlike_typeTokensFrom f {} t).solid_mapWords
  rw [← mappedTokens_flushToken] at hpass
  exact hpass

/-! ### Words that are replaced -/

section

variable {f : Text → Text}

/-- The word that a text starts with is its first word run. -/
theorem leadAndMapped_fst (f : Text → Text) (t : Text) :
    (Text.leadAndMapped f t).1 = (Text.leadAndRuns t).1 := by
  induction t with
  | nil => rfl
  | cons c r ih =>
      simp only [Text.leadAndMapped, Text.leadAndRuns, ih]
      split <;> rfl

/-- The words of a text are the one it starts with, if it does, and the others. -/
theorem mem_wordRuns {t v : Text} :
    v ∈ t.wordRuns ↔ ((Text.leadAndRuns t).1 ≠ [] ∧ v = (Text.leadAndRuns t).1) ∨
      v ∈ (Text.leadAndRuns t).2 := by
  rw [Text.wordRuns]
  obtain ⟨lead, runs⟩ := Text.leadAndRuns t
  cases lead <;> simp

/-- Behind a character that is in no word, all words are others. -/
theorem leadAndRuns_cons_of_not_isWord {c : Char} (hc : isWord c = false) (t : Text) :
    Text.leadAndRuns (c :: t) = ([], t.wordRuns) := by
  simp [Text.leadAndRuns, Text.wordRuns, hc]

/-- A word that is not changed, if it is one, stays. -/
theorem mapWord_eq_self {v : Text} (h : v ≠ [] → f v = v) : Text.mapWord f v = v := by
  cases v with
  | nil => rfl
  | cons c r => exact h (by simp)

/-- A text whose words are replaced by themselves stays as it is. -/
theorem mapWords_eq_self {t : Text} (h : ∀ v ∈ t.wordRuns, f v = v) : t.mapWords f = t := by
  have hrest : ∀ t : Text, (∀ v ∈ (Text.leadAndRuns t).2, f v = v) →
      (Text.leadAndRuns t).1 ++ (Text.leadAndMapped f t).2 = t := by
    intro t
    induction t with
    | nil => exact fun _ => rfl
    | cons c r ih =>
        intro hruns
        by_cases hc : isWord c = true
        · rw [Text.leadAndMapped_cons_of_isWord f hc]
          simp only [Text.leadAndRuns, hc, if_true] at hruns ⊢
          exact congrArg (c :: ·) (ih hruns)
        · rw [Bool.not_eq_true] at hc
          rw [leadAndRuns_cons_of_not_isWord hc] at hruns ⊢
          rw [Text.leadAndMapped_cons_of_not_isWord f hc, Text.mapWords_eq, leadAndMapped_fst]
          have hlead : Text.mapWord f (Text.leadAndRuns r).1 = (Text.leadAndRuns r).1 :=
            mapWord_eq_self fun hne => hruns _ (mem_wordRuns.mpr (Or.inl ⟨hne, rfl⟩))
          rw [hlead]
          exact congrArg (c :: ·) (ih fun v hv => hruns v (mem_wordRuns.mpr (Or.inr hv)))
  have hlead : Text.mapWord f (Text.leadAndRuns t).1 = (Text.leadAndRuns t).1 :=
    mapWord_eq_self fun hne => h _ (mem_wordRuns.mpr (Or.inl ⟨hne, rfl⟩))
  rw [Text.mapWords_eq, leadAndMapped_fst, hlead]
  exact hrest t fun v hv => h v (mem_wordRuns.mpr (Or.inr hv))

/-- The tokens of a type have all its characters that are not blank. -/
theorem solid_typeTokens (t : Text) : t.solid = (typeTokens t).flatMap Text.solid := by
  have hself : ∀ u : Text, u.mapWords (fun v => v) = u := fun u => mapWords_eq_self fun _ _ => rfl
  have hpass := solid_mapWords (fun v => v) t
  simpa only [hself] using hpass

/-- So a character of the type is in one of them. -/
theorem mem_iff_exists_token {t : Text} {c : Char} (hc : isBlank c = false) :
    c ∈ t ↔ ∃ k ∈ typeTokens t, c ∈ k := by
  have hsolid : ∀ u : Text, c ∈ u ↔ c ∈ u.solid := fun u => by simp [Text.mem_solid, hc]
  rw [hsolid, solid_typeTokens, List.mem_flatMap]
  simp only [← hsolid]

/-- What replacing words does to the length of a text whose words are replaced but the one that it
starts with. -/
structure Shrinks (f : Text → Text) (t : Text) : Prop where
  le : (Text.leadAndRuns t).1.solid.length + (Text.leadAndMapped f t).2.solid.length
    ≤ t.solid.length
  lt : (∃ v ∈ (Text.leadAndRuns t).2, (f v).solid.length < v.solid.length) →
    (Text.leadAndRuns t).1.solid.length + (Text.leadAndMapped f t).2.solid.length < t.solid.length

/-- Then the word that it starts with may be replaced too. -/
theorem Shrinks.length_mapWords {t : Text} (h : Shrinks f t)
    (hle : ∀ v, (f v).solid.length ≤ v.solid.length) :
    (t.mapWords f).solid.length ≤ t.solid.length ∧
      ((∃ v ∈ t.wordRuns, (f v).solid.length < v.solid.length) →
        (t.mapWords f).solid.length < t.solid.length) := by
  obtain ⟨hwhole, hless⟩ := h
  have hword : (Text.mapWord f (Text.leadAndRuns t).1).solid.length
      ≤ (Text.leadAndRuns t).1.solid.length := by
    rw [Text.mapWord]
    split
    · exact Nat.zero_le _
    · exact hle _
  rw [Text.mapWords_eq, leadAndMapped_fst, Text.solid_append, List.length_append]
  refine ⟨by omega, ?_⟩
  rintro ⟨v, hv, hlt⟩
  rcases mem_wordRuns.mp hv with ⟨hne, rfl⟩ | hv
  · rw [Text.mapWord, if_neg (by simpa using hne)]
    omega
  · have hrest := hless ⟨v, hv, hlt⟩
    omega

/-- A change that makes no word longer makes no text longer, apart from blanks. -/
theorem shrinks (hle : ∀ v, (f v).solid.length ≤ v.solid.length) (t : Text) : Shrinks f t := by
  induction t with
  | nil => exact ⟨Nat.le_refl _, by simp [Text.leadAndRuns]⟩
  | cons c r ih =>
      by_cases hc : isWord c = true
      · obtain ⟨hwhole, hless⟩ := ih
        have hcons : ∀ u : Text, (Text.solid (c :: u)).length = u.solid.length + 1 := fun u => by
          simp [isBlank_eq_false_of_isWord hc]
        constructor
        · simp only [Text.leadAndRuns, Text.leadAndMapped_cons_of_isWord f hc, hc, if_true, hcons]
          omega
        · simp only [Text.leadAndRuns, Text.leadAndMapped_cons_of_isWord f hc, hc, if_true, hcons]
          intro hexists
          have hrest := hless hexists
          omega
      · rw [Bool.not_eq_true] at hc
        obtain ⟨hwhole, hless⟩ := ih.length_mapWords hle
        constructor
        · rw [leadAndRuns_cons_of_not_isWord hc, Text.leadAndMapped_cons_of_not_isWord f hc,
            Text.solid_cons, Text.solid_cons c r]
          simpa using hwhole
        · rw [leadAndRuns_cons_of_not_isWord hc, Text.leadAndMapped_cons_of_not_isWord f hc,
            Text.solid_cons, Text.solid_cons c r]
          simpa using hless

/-- **Taking a word out of a text** leaves it as it is if the word is not in it, and leaves less if
it is. -/
theorem solid_replaceWord_eq_iff {w : Text} (hw : w.solid ≠ []) (t : Text) :
    (Text.replaceWord w [] t).solid = t.solid ↔ w ∉ t.wordRuns := by
  constructor
  · intro heq hmem
    have hle : ∀ v : Text, (Text.solid (if v == w then [] else v)).length ≤ v.solid.length := by
      intro v
      split
      · exact Nat.zero_le _
      · exact Nat.le_refl _
    have hlt := ((shrinks hle t).length_mapWords hle).2
      ⟨w, hmem, by simpa using List.length_pos_iff.mpr hw⟩
    rw [Text.replaceWord] at heq
    rw [heq] at hlt
    exact Nat.lt_irrefl _ hlt
  · intro hmem
    rw [Text.replaceWord, mapWords_eq_self]
    intro v hv
    rw [if_neg]
    rw [beq_iff_eq]
    rintro rfl
    exact hmem hv

/-- Taking a word out of a text leaves a part of it. -/
theorem replaceWord_sublist (w t : Text) : (Text.replaceWord w [] t).Sublist t := by
  generalize hf : (fun v => if v == w then [] else v) = f
  have hle : ∀ v : Text, (f v).Sublist v := by
    intro v
    subst hf
    dsimp only
    split
    · exact List.nil_sublist v
    · exact List.Sublist.refl v
  have hword : ∀ v : Text, (Text.mapWord f v).Sublist v := by
    intro v
    rw [Text.mapWord]
    split
    · exact List.nil_sublist v
    · exact hle v
  have hboth : ∀ t : Text,
      ((Text.leadAndMapped f t).1 ++ (Text.leadAndMapped f t).2).Sublist t := by
    intro t
    induction t with
    | nil => exact List.Sublist.refl []
    | cons c r ih =>
        by_cases hc : isWord c = true
        · rw [Text.leadAndMapped_cons_of_isWord f hc]
          exact ih.cons_cons c
        · rw [Bool.not_eq_true] at hc
          rw [Text.leadAndMapped_cons_of_not_isWord f hc]
          exact (((hword _).append_right _).trans ih).cons_cons c
  rw [Text.replaceWord, hf, Text.mapWords_eq]
  exact ((hword _).append_right _).trans (hboth t)

end

/-! ### The base type -/

/-- A type without `const`, `*` and `&`, before its spacing is settled. -/
def bareType (t : Text) : Text :=
  (Text.replaceWord constToken [] t).filter fun c => c != '&' && c != '*'

/-- A bare type has the characters of the type that are neither blank nor marks, without the word
`const`. -/
theorem solid_bareType (t : Text) :
    (bareType t).solid
      = (Text.replaceWord constToken [] t).solid.filter fun c => c != '&' && c != '*' := by
  rw [bareType, Text.solid, Text.solid, List.filter_comm]

/-- What is left of a type is what is left of its tokens. -/
theorem solid_bareType_eq_flatMap (t : Text) :
    (bareType t).solid = (typeTokens t).flatMap fun k => (bareType k).solid := by
  simp only [solid_bareType]
  rw [Text.replaceWord, solid_mapWords, List.filter_flatMap]
  rfl

/-- A base type that is no array has its characters from the type, spaces aside. -/
theorem mem_of_mem_baseType {t : Text} {c : Char} (hc : isBlank c = false)
    (h : c ∈ baseType t false) : c ∈ t := by
  have hbase : baseType t false = Text.trim (Text.squeeze (bareType t)) ++ [] := rfl
  have hsolid : c ∈ (bareType t).solid := by
    rw [← Text.solid_squeeze, ← Text.solid_trim]
    rw [hbase, List.append_nil] at h
    exact Text.mem_solid.mpr ⟨h, hc⟩
  have hbare := (Text.mem_solid.mp hsolid).1
  exact (replaceWord_sublist constToken t).subset (List.mem_of_mem_filter hbare)

/-- **The base type, token by token.** -/
theorem solid_baseType (t : Text) (isArray : Bool) :
    (baseType t isArray).solid = ((typeTokens t).flatMap fun k => (bareType k).solid) ++
      if isArray then "[]" else "" := by
  have hbase : baseType t isArray
      = Text.trim (Text.squeeze (bareType t)) ++ if isArray then "[]" else "" :=
    rfl
  rw [hbase, Text.solid_append, Text.solid_trim, Text.solid_squeeze, solid_bareType_eq_flatMap]
  cases isArray <;> rfl

/-- A text without stars, ampersands and the word `const`. -/
def IsBare (t : Text) : Prop :=
  '*' ∉ t ∧ '&' ∉ t ∧ constToken ∉ t.wordRuns

instance (t : Text) : Decidable (IsBare t) :=
  inferInstanceAs (Decidable (_ ∧ _ ∧ _))

/-- **Which tokens are left whole**: those that are bare. Neither of the two steps can take
anything, for the other one brings nothing back. -/
theorem solid_bareType_eq_iff (k : Text) : (bareType k).solid = k.solid ↔ IsBare k := by
  have hconst : constToken.solid ≠ [] := by decide
  have hmem : ∀ {c : Char}, isBlank c = false → c ∈ k → c ∈ k.solid := fun hc hk =>
    Text.mem_solid.mpr ⟨hk, hc⟩
  constructor
  · intro heq
    have hle := ((replaceWord_sublist constToken k).filter fun c => !isBlank c).length_le
    change (Text.replaceWord constToken [] k).solid.length ≤ k.solid.length at hle
    rw [solid_bareType] at heq
    have hkept : (Text.replaceWord constToken [] k).solid = k.solid := by
      rw [← heq] at hle ⊢
      exact (List.filter_sublist.eq_of_length_le hle).symm
    rw [hkept, List.filter_eq_self] at heq
    refine ⟨fun hstar => ?_, fun href => ?_, (solid_replaceWord_eq_iff hconst k).mp hkept⟩
    · exact absurd (heq '*' (hmem (by decide) hstar)) (by decide)
    · exact absurd (heq '&' (hmem (by decide) href)) (by decide)
  · rintro ⟨hstar, href, hword⟩
    rw [solid_bareType, (solid_replaceWord_eq_iff hconst k).mpr hword, List.filter_eq_self]
    intro c hc
    have hck := (Text.mem_solid.mp hc).1
    have hne : c ≠ '&' ∧ c ≠ '*' := ⟨fun h => href (h ▸ hck), fun h => hstar (h ▸ hck)⟩
    simp [hne]

/-! ### The parameter of a block -/

/-- The declaration a block has, without its comments and its default value. -/
def ParameterBlock.declaration (b : ParameterBlock) : Text :=
  (splitDefault (separateComments b.text).1).1

/-- The key of a parameter is that of its type. -/
theorem ParameterBlock.parameter_key (b : ParameterBlock) :
    b.parameter.key = typeKey (splitTypeAndName b.declaration).type := by
  simp only [ParameterBlock.parameter, ParameterBlock.declaration]

/-- The base type of a parameter is that of its type, with the bound of an array. -/
theorem ParameterBlock.parameter_baseType (b : ParameterBlock) :
    b.parameter.baseType = Sharpen.baseType (splitTypeAndName b.declaration).type
      (splitTypeAndName b.declaration).isArray := by
  simp only [ParameterBlock.parameter, ParameterBlock.declaration]

/-- The block of a parameter without comments, on one line. -/
def plainBlock (t : Text) : ParameterBlock :=
  ⟨t, false, 0⟩

end Sharpen
