import Sharpen.Proofs.TypeKey.Exact
import Sharpen.Proofs.TypeKey.Gathered

/-!
# Blanks That Count

Two spellings of a type that differ in the blanks at one place may have different keys. Outside of
template brackets and array bounds blanks do nothing but end a token, so all that counts is whether
there are any, and only where a token would run on without them. Inside, all blanks of a token are
kept but those next to `<`, `>` and `,`: there a blank next to `*` or `&` counts, and so does each
blank of a run between two words.

The statement is for any two texts, with and without blanks between them, and it is exact in all
cases. Outside of brackets it is about whether a token runs on. Inside it is about the gap and the
marks next to it, since tightening drops the blanks next to `<`, `>` and `,` and keeps all others.
That keys differ is shown by their lengths where two tokens become one.

## Main definitions

* `marksGap` — whether there is a template mark next to the place between two texts, blanks aside.
* `keyLength` — the length of the key of a row of tokens, with a space behind it.
* `TokensApart` — no token runs on from one text into the other.

## Main results

* `exists_tighten_gap` — what tightening makes of the blanks at one place of a token.
* `typeKey_eq_iff_tighten` — a token that names the type can be read off the key.
* `typeKey_ne_of_joined` — running two tokens together changes the key.
* `typeKey_respaced_iff` — the blanks at one place count exactly where they are said to above.
* `Gathers.typeKey_insert_iff` — outside of brackets blanks count where a token would run on without
  them.
* `Gathers.typeKey_inside_iff` — inside of brackets they count where no template mark is next to
  them.
-/

namespace Sharpen

/-! ### Blanks inside of a token -/

/-- Either no element of a list has a property, or there is a last one that does. -/
theorem exists_last {α : Type} (p : α → Bool) (l : List α) : (∀ a ∈ l, p a = false) ∨
    ∃ left a right, l = left ++ a :: right ∧ p a = true ∧ ∀ b ∈ right, p b = false := by
  induction l using List.reverseRecOn with
  | nil => exact Or.inl (by simp)
  | append_singleton l a ih =>
      have hconcat : ∀ {r : List α}, (∀ b ∈ r, p b = false) → p a = false →
          ∀ b ∈ r ++ [a], p b = false := by
        intro r hr ha b hb
        rcases List.mem_append.mp hb with hb | hb
        · exact hr b hb
        · rw [List.mem_singleton.mp hb, ha]
      by_cases ha : p a = true
      · exact Or.inr ⟨l, a, [], rfl, ha, by simp⟩
      · rw [Bool.not_eq_true] at ha
        rcases ih with hnone | ⟨left, c, right, rfl, hc, hright⟩
        · exact Or.inl (hconcat hnone ha)
        · exact Or.inr ⟨left, c, right ++ [a], by simp, hc, hconcat hright ha⟩

/-- Whether the first character of a text that is no blank is a template mark. -/
def startsWithMark (t : Text) : Bool :=
  (t.dropWhile isBlank).head?.any isTemplateMark

/-- Whether there is a template mark next to the place between two texts, blanks aside. -/
def marksGap (u v : Text) : Bool :=
  startsWithMark u.reverse || startsWithMark v

/-- Blanks in front of a text do not hide the mark that it starts with. -/
theorem startsWithMark_blanks {gap : Text} (hgap : gap.isBlank = true) (v : Text) :
    startsWithMark (gap ++ v) = startsWithMark v := by
  have hdrop : gap.dropWhile isBlank = [] :=
    List.dropWhile_eq_nil_iff.mpr (List.all_eq_true.mp hgap)
  rw [startsWithMark, List.dropWhile_append, hdrop]
  rfl

/-- A character that is no blank parts the text for tightening. -/
theorem tightenFrom_append_cons {c : Char} (hc : isBlank c = false) (afterMark : Bool)
    (u v : Text) :
    tightenFrom afterMark (u ++ c :: v)
      = tightenFrom afterMark (u ++ [c]) ++ tightenFrom (isTemplateMark c) v := by
  induction u generalizing afterMark with
  | nil => simp [tightenFrom, hc]
  | cons d r ih =>
      have hhead : ((r ++ c :: v).dropWhile isBlank).head? =
          ((r ++ [c]).dropWhile isBlank).head? := by
        simp [← List.find?_not_eq_head?_dropWhile, List.find?_append, hc]
      simp only [List.cons_append, tightenFrom, hhead, ih]
      split_ifs <;> rfl

/-- Blanks go next to a template mark, and stay elsewhere. -/
theorem tightenFrom_blanks {gap : Text} (hgap : gap.isBlank = true) (afterMark : Bool) (v : Text) :
    tightenFrom afterMark (gap ++ v)
      = (if afterMark || startsWithMark v then [] else gap) ++ tightenFrom afterMark v := by
  induction gap with
  | nil => simp
  | cons c r ih =>
      obtain ⟨hc, hr⟩ : isBlank c = true ∧ Text.isBlank r = true := by
        simpa [Text.isBlank] using hgap
      have hmark : ((r ++ v).dropWhile isBlank).head?.any isTemplateMark = startsWithMark v :=
        startsWithMark_blanks hr v
      rw [List.cons_append, tightenFrom, if_pos hc, hmark]
      cases afterMark with
      | true => simpa using ih hr
      | false =>
          rw [if_neg (by simp), ih hr]
          cases startsWithMark v <;> rfl

/-- A text that is not blank, taken apart at its last character that is no blank. -/
theorem exists_last_solid {u : Text} {b : Char} (hb : b ∈ u) (hblank : isBlank b = false) :
    ∃ w c gap, u = w ++ c :: gap ∧ isBlank c = false ∧ Text.isBlank gap = true := by
  rcases exists_last (fun c => !isBlank c) u with hnone | ⟨w, c, gap, hu, hc, hgap⟩
  · simpa [hblank] using hnone b hb
  · refine ⟨w, c, gap, hu, by simpa using hc, List.all_eq_true.mpr fun x hx => ?_⟩
    simpa using hgap x hx

/-- The mark in front of a place is the last character there that is no blank. -/
theorem startsWithMark_reverse {c : Char} (hc : isBlank c = false) {gap : Text}
    (hgap : gap.isBlank = true) (w : Text) :
    startsWithMark (w ++ c :: gap).reverse = isTemplateMark c := by
  have hrev : Text.isBlank gap.reverse = true := by
    rw [Text.isBlank, List.all_reverse]
    exact hgap
  rw [List.reverse_append, List.reverse_cons, List.append_assoc, startsWithMark_blanks hrev]
  simp [startsWithMark, hc]

/-- **What tightening makes of the blanks at one place of a token**: they go if there is a template
mark next to the place, and stay if not. -/
theorem exists_tighten_gap {u : Text} {b : Char} (hb : b ∈ u) (hblank : isBlank b = false)
    (v : Text) :
    ∃ left right, ∀ gap : Text, gap.isBlank = true →
      tighten (u ++ (gap ++ v)) = left ++ ((if marksGap u v then [] else gap) ++ right) := by
  obtain ⟨w, c, gap₀, rfl, hc, hgap₀⟩ := exists_last_solid hb hblank
  refine ⟨tighten (w ++ [c]) ++ (if marksGap (w ++ c :: gap₀) v then [] else gap₀),
    tightenFrom (isTemplateMark c) v, fun gap hgap => ?_⟩
  rw [List.append_assoc, List.cons_append, tighten, tightenFrom_append_cons hc,
    tightenFrom_blanks hgap₀, tightenFrom_blanks hgap, startsWithMark_blanks hgap, marksGap,
    startsWithMark_reverse hc hgap₀]
  simp [tighten]

/-- The mark next to a place is seen from the token there as from the whole text. -/
theorem marksGap_of_suffix {u current : Text} (h : current <:+ u) {b : Char} (hb : b ∈ current)
    (hblank : isBlank b = false) (v : Text) : marksGap u v = marksGap current v := by
  obtain ⟨w, c, gap, rfl, hc, hgap⟩ := exists_last_solid hb hblank
  obtain ⟨t, rfl⟩ := h
  rw [marksGap, marksGap, ← List.append_assoc, startsWithMark_reverse hc hgap,
    startsWithMark_reverse hc hgap]

/-- Behind a token that has begun, a text starts with a mark when the rest of that token does. A
blank stays, and the first character that is none stays too unless it is a bracket `[`. -/
theorem startsWithMark_typeTokensFrom {s : TokenState} (hs : s ≠ {}) (v : Text) :
    startsWithMark (typeTokensFrom s v).1 = startsWithMark v := by
  induction v with
  | nil => rfl
  | cons c r ih =>
      by_cases hc : isBlank c = true
      · have hgap : Text.isBlank [c] = true := by simpa [Text.isBlank] using hc
        have hread := typeTokensFrom_blanks_inside hs hgap r
        rw [List.singleton_append] at hread
        rw [hread, startsWithMark_blanks hgap, ih, ← startsWithMark_blanks hgap r]
        rfl
      · rw [Bool.not_eq_true] at hc
        have hhead : ∀ r, startsWithMark (c :: r) = isTemplateMark c := by
          intro r
          simp [startsWithMark, hc]
        rw [hhead]
        by_cases hopen : c = '[' ∧ s.angles = 0
        · obtain ⟨rfl, hangles⟩ := hopen
          rw [typeTokensFrom_cons]
          simp [TokenState.put, hangles, startsWithMark, isTemplateMark]
        · obtain ⟨token, htoken⟩ := exists_cons_typeTokensFrom hs hopen r
          rw [htoken, hhead]

/-- Two texts that meet without blanks are tightened on their own. -/
theorem tighten_append {k l : Text} (hk : ∀ c, k.getLast? = some c → isBlank c = false)
    (hl : ∀ c, l.head? = some c → isBlank c = false) :
    tighten (k ++ l) = tighten k ++ tighten l := by
  rcases List.eq_nil_or_concat k with rfl | ⟨w, c, rfl⟩
  · rfl
  have hc : isBlank c = false := hk c (by simp)
  have hmark : tightenFrom (isTemplateMark c) l = tightenFrom false l := by
    cases l with
    | nil => rfl
    | cons d r => simp [tightenFrom, hl d rfl]
  rw [List.concat_eq_append, List.append_assoc, List.singleton_append, tighten,
    tightenFrom_append_cons hc, hmark]
  rfl

/-- Tightening leaves something of a text that is not blank. -/
theorem tighten_ne_nil {k : Text} {c : Char} (hc : c ∈ k) (hblank : isBlank c = false) :
    tighten k ≠ [] := by
  intro hnil
  have hkeep := filter_tightenFrom false k
  have hmem : c ∈ k.filter fun c => !isBlank c := List.mem_filter.mpr ⟨hc, by simp [hblank]⟩
  rw [← hkeep, ← tighten, hnil] at hmem
  cases hmem

/-! ### Tokens in a key -/

/-- A token that starts with neither a star nor an ampersand is no marker. -/
theorem isMarker_eq_false_of_head {k : Text} (h : ∀ c, k.head? = some c → ¬ (c = '*' ∨ c = '&')) :
    isMarker k = false := by
  by_contra hmarker
  simp only [Bool.not_eq_false, isMarker, Bool.or_eq_true, beq_iff_eq] at hmarker
  rcases hmarker with rfl | rfl
  · exact h '*' rfl (Or.inl rfl)
  · exact h '&' rfl (Or.inr rfl)

/-- A token with a character that no modifier has is none. -/
theorem isModifier_eq_false_of_mem {k : Text} {c : Char} (hc : c ∈ k)
    (hother : c ∉ ['*', '&'] ++ constToken) : isModifier k = false := by
  refine isModifier_eq_false_iff.mpr ⟨?_, ?_⟩
  · by_contra hmarker
    simp only [Bool.not_eq_false, isMarker, Bool.or_eq_true, beq_iff_eq] at hmarker
    rcases hmarker with rfl | rfl <;> simp_all
  · rintro rfl
    exact hother (List.mem_append_right _ hc)

/-- Types with the same tokens have the same key. -/
theorem typeKey_eq_of_typeTokens {s t : Text} (h : typeTokens s = typeTokens t) :
    typeKey s = typeKey t := by
  rw [typeKey, typeKey, h]

/-- A row with one space between its parts, and one behind. -/
theorem join_append_space {parts : List Text} (h : parts ≠ []) :
    Text.join " " parts ++ [' '] = parts.flatMap (· ++ [' ']) := by
  induction parts with
  | nil => exact absurd rfl h
  | cons k r ih =>
      cases r with
      | nil => simp [Text.join]
      | cons l r =>
          rw [List.flatMap_cons, ← ih (by simp)]
          simp [Text.join, List.intercalate_cons_cons]

/-- One part of a row can be read off the row. -/
theorem join_eq_join_iff {left right : List Text} {k l : Text} :
    Text.join " " (left ++ k :: right) = Text.join " " (left ++ l :: right) ↔ k = l := by
  refine ⟨fun h => ?_, fun h => by rw [h]⟩
  have hspaced := congrArg (· ++ [' ']) h
  simp only [join_append_space (show left ++ k :: right ≠ [] by simp),
    join_append_space (show left ++ l :: right ≠ [] by simp), List.flatMap_append,
    List.flatMap_cons] at hspaced
  simpa using hspaced

/-- The key of a type by one of the tokens that name it. -/
theorem typeKey_of_named {t k : Text} {left right : List Text}
    (ht : typeTokens t = left ++ k :: right) (hk : isModifier k = false) :
    typeKey t = Text.join " "
      (((if (left ++ right).contains constToken then [constToken] else []) ++
          (left.filter fun k => !isModifier k).map tighten) ++
        tighten k :: ((right.filter fun k => !isModifier k).map tighten ++
          if ((left ++ right).filter isMarker).flatten.isEmpty then []
            else [((left ++ right).filter isMarker).flatten])) := by
  obtain ⟨hmarker, hconst⟩ := isModifier_eq_false_iff.mp hk
  have hcontains : (typeTokens t).contains constToken = (left ++ right).contains constToken := by
    rw [Bool.eq_iff_iff, List.contains_iff_mem, List.contains_iff_mem, ht]
    simp [Ne.symm hconst]
  have hmarkers : markerTokens t = (left ++ right).filter isMarker := by
    rw [markerTokens, ht, List.filter_append, List.filter_append,
      List.filter_cons_of_neg (by simp [hmarker])]
  have hnamed : namedTokens t = (left.filter fun k => !isModifier k) ++
      k :: right.filter fun k => !isModifier k := by
    rw [namedTokens, ht, List.filter_append, List.filter_cons_of_pos (by simp [hk])]
  rw [typeKey_eq_join, keyParts, hcontains, hmarkers, hnamed, List.map_append, List.map_cons]
  simp only [List.append_assoc, List.cons_append]

/-- **A token that names the type can be read off the key**, up to blanks next to template marks. -/
theorem typeKey_eq_iff_tighten {s t k l : Text} {left right : List Text}
    (hs : typeTokens s = left ++ k :: right) (ht : typeTokens t = left ++ l :: right)
    (hk : isModifier k = false) (hl : isModifier l = false) :
    typeKey s = typeKey t ↔ tighten k = tighten l := by
  rw [typeKey_of_named hs hk, typeKey_of_named ht hl]
  exact join_eq_join_iff

/-- The length of the tokens that name a type, with a space behind each. -/
def namedLength (tokens : List Text) : Nat :=
  ((tokens.filter fun k => !isModifier k).flatMap fun k => tighten k ++ [' ']).length

/-- The length of the key of a row of tokens, with a space behind it. -/
def keyLength (tokens : List Text) : Nat :=
  (if tokens.contains constToken then 6 else 0) + namedLength tokens +
    (if (tokens.filter isMarker).flatten = [] then 0
      else (tokens.filter isMarker).flatten.length + 1)

/-- The tokens of a key that are no markers are counted part by part. -/
theorem namedLength_append (left right : List Text) :
    namedLength (left ++ right) = namedLength left + namedLength right := by
  simp [namedLength]

/-- Such a token counts with its length and one more, unless it is `const`. -/
theorem namedLength_singleton {k : Text} (hk : isMarker k = false) :
    namedLength [k] = if k = constToken then 0 else (tighten k).length + 1 := by
  split_ifs with hconst
  · subst hconst
    rfl
  · have hnamed := isModifier_eq_false_iff.mpr ⟨hk, hconst⟩
    simp [namedLength, hnamed]

/-- Tokens that are no markers add to the length what they add to the parts in front of these. -/
theorem exists_keyLength (left right : List Text) :
    ∃ size, ∀ mid : List Text, (∀ k ∈ mid, isMarker k = false) →
      keyLength (left ++ (mid ++ right)) =
        (if constToken ∈ left ++ right ∨ constToken ∈ mid then 6 else 0) + namedLength mid
          + size := by
  refine ⟨namedLength left + namedLength right +
    (if ((left ++ right).filter isMarker).flatten = [] then 0
      else ((left ++ right).filter isMarker).flatten.length + 1), fun mid hmid => ?_⟩
  have hmarkers : (left ++ (mid ++ right)).filter isMarker = (left ++ right).filter isMarker := by
    have hnone : mid.filter isMarker = [] :=
      List.filter_eq_nil_iff.mpr fun k hk => by simp [hmid k hk]
    rw [List.filter_append, List.filter_append, hnone, List.nil_append, List.filter_append]
  have hconst : constToken ∈ left ++ (mid ++ right) ↔
      constToken ∈ left ++ right ∨ constToken ∈ mid := by
    simp only [List.mem_append]
    tauto
  simp only [keyLength, hmarkers, List.contains_iff_mem, hconst, namedLength_append]
  omega

/-- The key of a type with such a token is one shorter than what its tokens count. -/
theorem length_typeKey {t k : Text} (hk : k ∈ typeTokens t) (hmarker : isMarker k = false) :
    (typeKey t).length + 1 = keyLength (typeTokens t) := by
  have hparts : keyParts t ≠ [] := by
    by_cases hconst : k = constToken
    · subst hconst
      simp [keyParts, hk]
    · have hnamed : k ∈ namedTokens t :=
        List.mem_filter.mpr ⟨hk, by simp [isModifier_eq_false_iff.mpr ⟨hmarker, hconst⟩]⟩
      simp [keyParts, List.ne_nil_of_mem hnamed]
  have hlength : (typeKey t).length + 1 = (typeKey t ++ [' ']).length := by simp
  rw [hlength, typeKey_eq_join, join_append_space (by simp [hparts]), keyParts, keyLength,
    namedLength]
  simp only [List.flatMap_append, List.length_append, List.contains_iff_mem, namedTokens,
    markerTokens, List.flatMap_map, List.isEmpty_iff]
  congr 1
  · congr 1
    split_ifs <;> rfl
  · split_ifs <;> simp

/-- **Running two tokens together changes the key**, for it makes it longer or shorter. The word
`const` has five letters, and is counted once with its space. -/
theorem typeKey_ne_of_joined {s t k l : Text} {left right : List Text}
    (hs : typeTokens s = left ++ k :: l :: right) (ht : typeTokens t = left ++ (k ++ l) :: right)
    (hk : isMarker k = false) (hl : isMarker l = false) (hkl : isMarker (k ++ l) = false)
    (htight : tighten (k ++ l) = tighten k ++ tighten l) (hk' : tighten k ≠ [])
    (hl' : tighten l ≠ []) : typeKey s ≠ typeKey t := by
  intro h
  have hsize : keyLength (typeTokens s) = keyLength (typeTokens t) := by
    rw [← length_typeKey (k := k) (by simp [hs]) hk,
      ← length_typeKey (k := k ++ l) (by simp [ht]) hkl,
      h]
  have hklength := List.length_pos_iff.mpr hk'
  have hllength := List.length_pos_iff.mpr hl'
  have hsum : (tighten (k ++ l)).length = (tighten k).length + (tighten l).length := by
    rw [htight, List.length_append]
  obtain ⟨size, hlength⟩ := exists_keyLength left right
  have htwo := hlength [k, l] (by simp [hk, hl])
  have hone := hlength [k ++ l] (by simp [hkl])
  rw [hs, ht] at hsize
  replace hsize := htwo.symm.trans (hsize.trans hone)
  rw [show [k, l] = [k] ++ [l] from rfl, namedLength_append, namedLength_singleton hk,
    namedLength_singleton hl, namedLength_singleton hkl] at hsize
  simp only [List.mem_cons, List.not_mem_nil, or_false] at hsize
  have hconst : ∀ {m}, m = constToken → (tighten m).length = 5 := by
    rintro m rfl
    rfl
  have hkc := @hconst k
  have hlc := @hconst l
  have hklc := @hconst (k ++ l)
  grind

/-! ### Spellings that differ at one place -/

/-- No token runs on from one text into the other. -/
def TokensApart (u v : Text) : Prop :=
  typeTokens (u ++ v) = typeTokens u ++ typeTokens v

instance (u v : Text) : Decidable (TokensApart u v) :=
  inferInstanceAs (Decidable (_ = _))

section

variable {u current : Text} {ended : List Text}

/-- The tokens of the text itself. -/
theorem Gathers.typeTokens_eq (h : Gathers u ended current) :
    typeTokens u = ended ++ flushToken current [] := by
  simpa [typeTokensFrom] using h.typeTokens_append []

/-- A token runs on where one is open and the text behind goes on with it. -/
theorem Gathers.tokensApart_iff (h : Gathers u ended current) (hplace : placeBehind u = {})
    (v : Text) : TokensApart u v ↔ current = [] ∨ (typeTokensFrom {} v).1 = [] := by
  rw [TokensApart, h.typeTokens_append, hplace, h.typeTokens_eq, List.append_assoc,
    List.append_cancel_left_eq, ← flushToken_eq_append,
    show typeTokens v = flushToken (typeTokensFrom {} v).1 (typeTokensFrom {} v).2 from rfl]
  by_cases hcurrent : current = []
  · simp [hcurrent, flushToken]
  by_cases hnext : (typeTokensFrom {} v).1 = []
  · simp [hnext, flushToken]
  · rw [flushToken_of_ne_nil (by simp [hcurrent]), flushToken_of_ne_nil hcurrent,
      flushToken_of_ne_nil hnext]
    simp [hcurrent, hnext]

/-- Outside of brackets blanks part the tokens on either side. -/
theorem Gathers.typeTokens_blanks (h : Gathers u ended current) (hplace : placeBehind u = {})
    {gap : Text} (hgap : gap.isBlank = true) (hne : gap ≠ []) (v : Text) :
    typeTokens (u ++ (gap ++ v)) = typeTokens u ++ typeTokens v := by
  rw [h.typeTokens_append, hplace, typeTokensFrom_blanks_outside hgap hne, List.append_nil,
    flushToken_eq_append, ← List.append_assoc, ← h.typeTokens_eq]

/-- **Outside of brackets** blanks count where a token would run on without them. -/
theorem Gathers.typeKey_insert_iff (h : Gathers u ended current) (hplace : placeBehind u = {})
    {gap : Text} (hgap : gap.isBlank = true) (hne : gap ≠ []) (v : Text) :
    typeKey (u ++ (gap ++ v)) = typeKey (u ++ v) ↔ TokensApart u v := by
  have hspaced := h.typeTokens_blanks hplace hgap hne v
  refine ⟨fun hkey => ?_, fun hapart => ?_⟩
  · by_contra hjoined
    rw [h.tokensApart_iff hplace, not_or] at hjoined
    obtain ⟨hcurrent, hnext⟩ := hjoined
    have hlast := fun c hc => (h.outside hplace c hc).1
    have hfirst := fun c hc => (head_typeTokensFrom (v := v) (c := c) hc).1
    have hjoined : typeTokens (u ++ v) = ended ++ (current ++ (typeTokensFrom {} v).1) ::
        (typeTokensFrom {} v).2 := by
      rw [h.typeTokens_append, hplace, flushToken_of_ne_nil (by simp [hcurrent])]
    rw [h.typeTokens_eq, List.append_assoc, flushToken_of_ne_nil hcurrent,
      show typeTokens v = _ from flushToken_of_ne_nil hnext _] at hspaced
    refine typeKey_ne_of_joined hspaced hjoined (isMarker_eq_false_of_head h.head)
      (isMarker_eq_false_of_head fun c hc => (head_typeTokensFrom hc).2)
      (isMarker_eq_false_of_head fun c hc => h.head c ?_) (tighten_append hlast hfirst) ?_ ?_ hkey
    · rwa [List.head?_append_of_ne_nil _ hcurrent] at hc
    · exact tighten_ne_nil (List.getLast_mem hcurrent)
        (hlast _ (List.getLast?_eq_some_getLast hcurrent))
    · exact tighten_ne_nil (List.head_mem hnext) (hfirst _ (List.head?_eq_some_head hnext))
  · exact typeKey_eq_of_typeTokens (hspaced.trans hapart.symm)

/-- **Inside of brackets** they count where no template mark is next to them. -/
theorem Gathers.typeKey_inside_iff (h : Gathers u ended current) (hplace : placeBehind u ≠ {})
    {gap gap' : Text} (hgap : gap.isBlank = true) (hgap' : gap'.isBlank = true) (v : Text) :
    typeKey (u ++ (gap ++ v)) = typeKey (u ++ (gap' ++ v)) ↔ gap = gap' ∨ marksGap u v = true := by
  obtain ⟨b, hb, hblank, hnamed⟩ : ∃ b ∈ current, isBlank b = false ∧
      ∀ k : Text, b ∈ k → isModifier k = false := by
    rcases h.inside hplace with hb | hb
    · exact ⟨'<', hb, by decide, fun k hk => isModifier_eq_false_of_mem hk (by decide)⟩
    · exact ⟨'[', hb, by decide, fun k hk => isModifier_eq_false_of_mem hk (by decide)⟩
  have htokens : ∀ gap : Text, gap.isBlank = true → typeTokens (u ++ (gap ++ v)) =
      ended ++ (current ++ (gap ++ (typeTokensFrom (placeBehind u) v).1)) ::
        (typeTokensFrom (placeBehind u) v).2 := by
    intro gap hgap
    rw [h.typeTokens_append, typeTokensFrom_blanks_inside hplace hgap]
    exact congrArg (ended ++ ·) (flushToken_of_ne_nil (by simp [List.ne_nil_of_mem hb]) _)
  have hmarks : marksGap u v = marksGap current (typeTokensFrom (placeBehind u) v).1 := by
    rw [marksGap_of_suffix h.isSuffix hb hblank, marksGap, marksGap,
      startsWithMark_typeTokensFrom hplace]
  obtain ⟨left, right, htight⟩ :=
    exists_tighten_gap hb hblank (typeTokensFrom (placeBehind u) v).1
  rw [typeKey_eq_iff_tighten (htokens gap hgap) (htokens gap' hgap') (hnamed _ (by simp [hb]))
    (hnamed _ (by simp [hb])), htight gap hgap, htight gap' hgap', ← hmarks]
  cases marksGap u v <;> simp

end

/-- **Where blanks count.** Two spellings of a type that differ in the blanks at one place have the
same key exactly if the blanks are the same or do not count there. Outside of template brackets and
array bounds it only counts whether there are any, and that only where a token would run on without
them, which is never the case next to `*` and `&`. Inside, blanks do not count next to `<`, `>` and
`,`, and everywhere else each of them does. -/
theorem typeKey_respaced_iff (u v gap gap' : Text) (hgap : gap.isBlank = true)
    (hgap' : gap'.isBlank = true) :
    (typeKey (u ++ (gap ++ v)) = typeKey (u ++ (gap' ++ v)) ↔ gap = gap' ∨
      if placeBehind u = {} then (gap ≠ [] ∧ gap' ≠ []) ∨ TokensApart u v
      else marksGap u v = true) ∧
    (placeBehind u = {} → (u.getLast?.any fun c => isMarker [c]) = true ∨
      (v.head?.any fun c => isMarker [c]) = true → TokensApart u v) := by
  obtain ⟨ended, current, h⟩ := exists_gathers u
  refine ⟨?_, fun hplace hmarker => ?_⟩
  · split_ifs with hplace
    · by_cases hne : gap = [] <;> by_cases hne' : gap' = []
      · simp [hne, hne']
      · subst hne
        rw [List.nil_append, eq_comm, h.typeKey_insert_iff hplace hgap' hne']
        simp [Ne.symm hne']
      · subst hne'
        rw [List.nil_append, h.typeKey_insert_iff hplace hgap hne]
        simp [hne]
      · have htokens : typeTokens (u ++ (gap ++ v)) = typeTokens (u ++ (gap' ++ v)) := by
          rw [h.typeTokens_blanks hplace hgap hne, h.typeTokens_blanks hplace hgap' hne']
        exact iff_of_true (typeKey_eq_of_typeTokens htokens) (Or.inr (Or.inl ⟨hne, hne'⟩))
    · exact h.typeKey_inside_iff hplace hgap hgap' v
  · rw [h.tokensApart_iff hplace]
    rcases hmarker with hmarker | hmarker
    · -- An open token would have the marker at its end.
      refine Or.inl (by_contra fun hcurrent => ?_)
      obtain ⟨t, rfl⟩ := h.isSuffix
      rw [List.getLast?_append_of_ne_nil _ hcurrent] at hmarker
      obtain ⟨c, hc, hmark⟩ := (Option.any_eq_true _ _).mp hmarker
      exact (h.outside hplace c hc).2 (by simpa [isMarker] using hmark)
    · obtain ⟨c, hc, hmark⟩ := (Option.any_eq_true _ _).mp hmarker
      obtain ⟨r, rfl⟩ := List.head?_eq_some_iff.mp hc
      rw [typeTokensFrom_cons, TokenState.put_marker _ (by simpa [isMarker] using hmark)]
      exact Or.inr rfl

/-- Blanks in a map of lists: behind the comma, in front of the star, and behind the last
bracket. -/
theorem typeKey_respaced_map :
    typeKey "map<int, list<T*>>&" = typeKey "map<int,list<T*>>&" ∧
    typeKey "map<int,list<T *>>&" ≠ typeKey "map<int,list<T*>>&" ∧
    typeKey "map<int,list<T*>> &" = typeKey "map<int,list<T*>>&" := by
  have hcomma := (typeKey_respaced_iff "map<int," "list<T*>>&" " " [] rfl rfl).1
  have hstar := (typeKey_respaced_iff "map<int,list<T" "*>>&" " " [] rfl rfl).1
  have hlast := (typeKey_respaced_iff "map<int,list<T*>>" "&" " " [] rfl rfl).1
  refine ⟨hcomma.mpr (Or.inr ?_), fun h => ?_, hlast.mpr (Or.inr ?_)⟩
  · decide
  · exact absurd (hstar.mp h) (by decide)
  · decide

/-- The characters next to which the spacing of a type should not count. -/
def isSpacingMark (c : Char) : Bool :=
  isTemplateMark c || isMarker [c]

/-- Blanks next to such a character do count: in front of a star that is inside of template
brackets. -/
theorem not_forall_typeKey_respaced :
    ¬ ∀ u v gap : Text, gap.isBlank = true →
      (u.getLast?.any isSpacingMark || v.head?.any isSpacingMark) = true →
      typeKey (u ++ (gap ++ v)) = typeKey (u ++ v) := by
  intro h
  have hkey := h "vector<char" "*>" " " rfl rfl
  revert hkey
  decide

end Sharpen
