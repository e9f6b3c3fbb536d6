import Mathlib.Data.List.Forall2
import Sharpen.Proofs.TypeKey.Spacing
import Sharpen.Proofs.TypeKey.Tokens

/-!
# Type Keys Are Exact

Two spellings of a type get the same key exactly when they name the same type: they agree on
`const`, on the tokens that name the type up to blanks next to template marks, and on their markers.
One direction says that spacing and the place of `const` do not matter; the other one that no two
different types share a key, for a key is read back into the parts it was built from.

The parts of a key are the token `const`, the tokens that name the type and the markers, with single
spaces between them. They are read back by cutting the key into tokens. That the key is its own key
is the same fact, read once more.

## Main definitions

* `namedTokens` — the tokens that name the type.
* `markerTokens` — the markers of a type, in their order.
* `keyParts` — the parts of a key in front of its markers.

## Main results

* `typeTokens_typeKey` — the tokens of a key are the parts it was built from.
* `typeKey_eq_of_parts` — the key depends on nothing but these parts.
* `typeKey_eq_iff_parts` — the key is exact, and it is its own key.
-/

namespace Sharpen

/-! ### Whole tokens stay whole -/

/-- Tightening a whole text leaves it whole: the blanks it takes away are inside brackets. -/
theorem Whole.tightenFrom {d : Nat} {t : Text} (h : Whole d t) (afterMark : Bool) :
    Whole d (tightenFrom afterMark t) := by
  induction h generalizing afterMark with
  | nil => exact Whole.nil
  | opens _ ih =>
      have htight : ∀ r, Sharpen.tightenFrom afterMark ('<' :: r)
          = '<' :: Sharpen.tightenFrom true r := fun _ => rfl
      rw [htight]
      exact Whole.opens (ih true)
  | closes _ ih =>
      have htight : ∀ r, Sharpen.tightenFrom afterMark ('>' :: r)
          = '>' :: Sharpen.tightenFrom true r := fun _ => rfl
      rw [htight]
      exact Whole.closes (ih true)
  | inside hopen hclose hbound _ ih =>
      rw [Sharpen.tightenFrom]
      split_ifs
      · exact ih true
      · exact ih false
      · exact Whole.inside hopen hclose hbound (ih false)
      · exact Whole.inside hopen hclose hbound (ih _)
  | outside hopen hclose hbound hblank hmarker _ ih =>
      rw [Sharpen.tightenFrom, if_neg (by simp [hblank])]
      exact Whole.outside hopen hclose hbound hblank hmarker (ih _)

/-- Tightening a whole token leaves something of it. -/
theorem Whole.tighten_ne_nil {k : Text} (h : Whole 0 k) (hne : k ≠ []) : tighten k ≠ [] := by
  cases h with
  | nil => exact absurd rfl hne
  | opens _ => simp [tighten, Sharpen.tightenFrom, show isBlank '<' = false by decide]
  | closes _ => simp [tighten, Sharpen.tightenFrom, show isBlank '>' = false by decide]
  | outside _ _ _ hblank _ _ => simp [tighten, Sharpen.tightenFrom, hblank]

/-- Tightening keeps all characters that are no blanks. -/
theorem filter_tightenFrom (afterMark : Bool) (t : Text) :
    (tightenFrom afterMark t).filter (fun c => !isBlank c) = t.filter fun c => !isBlank c := by
  fun_induction Sharpen.tightenFrom afterMark t with
  | case1 => rfl
  | case2 c r hblank ih => simp [ih, hblank]
  | case3 _ c r hblank _ _ ih => simp [ih, hblank]
  | case4 _ c r hblank _ _ ih => simp [ih, hblank]
  | case5 _ c r hblank ih => simp [ih, hblank]

/-- A whole token without an opening bracket has no blanks. -/
theorem Whole.isBlank_eq_false {d : Nat} {k : Text} (h : Whole d k) (hd : d = 0) (hopen : '<' ∉ k) :
    ∀ c ∈ k, isBlank c = false := by
  induction h with
  | nil => simp
  | opens _ _ => simp at hopen
  | closes _ ih =>
      intro c hc
      rcases List.mem_cons.mp hc with rfl | hc
      · decide
      · exact ih (by omega) (fun h => hopen (List.mem_cons_of_mem _ h)) c hc
  | inside _ _ _ _ _ => omega
  | outside _ _ _ hblank _ _ ih =>
      intro c hc
      rcases List.mem_cons.mp hc with rfl | hc
      · exact hblank
      · exact ih rfl (fun h => hopen (List.mem_cons_of_mem _ h)) c hc

/-- A whole token is no marker. -/
theorem Whole.isMarker_eq_false {k : Text} (h : Whole 0 k) : isMarker k = false := by
  by_contra hmarker
  simp only [Bool.not_eq_false, isMarker, Bool.or_eq_true, beq_iff_eq] at hmarker
  rcases hmarker with rfl | rfl <;> cases h <;> simp_all

/-- The token `const`. -/
def constToken : Text :=
  "const"

/-- Only `const` itself is tightened to `const`. -/
theorem Whole.eq_constToken_of_tighten {k : Text} (h : Whole 0 k) (hk : tighten k = constToken) :
    k = constToken := by
  have hkeep := filter_tightenFrom false k
  rw [← tighten, hk] at hkeep
  have hopen : '<' ∉ k := by
    intro hmem
    have hin : '<' ∈ k.filter fun c => !isBlank c := List.mem_filter.mpr ⟨hmem, by decide⟩
    rw [← hkeep] at hin
    revert hin
    decide
  have hall : k.filter (fun c => !isBlank c) = k :=
    List.filter_eq_self.mpr fun c hc => by simp [h.isBlank_eq_false rfl hopen c hc]
  rw [← hall, ← hkeep]
  decide

/-- A token is no modifier when it is neither a marker nor `const`. -/
theorem isModifier_eq_false_iff {k : Text} :
    isModifier k = false ↔ isMarker k = false ∧ k ≠ constToken := by
  rw [isModifier, Bool.or_eq_false_iff, beq_eq_false_iff_ne]
  rfl

/-! ### The parts of a key -/

/-- The tokens that name the type. -/
def namedTokens (t : Text) : List Text :=
  (typeTokens t).filter fun k => !isModifier k

/-- The markers of a type, in their order. -/
def markerTokens (t : Text) : List Text :=
  (typeTokens t).filter isMarker

/-- The parts of a key in front of its markers. -/
def keyParts (t : Text) : List Text :=
  (if (typeTokens t).contains constToken then [constToken] else []) ++ (namedTokens t).map tighten

/-- A key is made of its parts, with spaces between them, and of the markers in a row. -/
theorem typeKey_eq_join (t : Text) :
    typeKey t = Text.join " " (keyParts t ++
      if (markerTokens t).flatten.isEmpty then [] else [(markerTokens t).flatten]) :=
  rfl

/-- **The key depends on nothing but its parts.** -/
theorem typeKey_eq_of_parts {a b : Text}
    (hconst : constToken ∈ typeTokens a ↔ constToken ∈ typeTokens b)
    (hnamed : (namedTokens a).map tighten = (namedTokens b).map tighten)
    (hmarkers : markerTokens a = markerTokens b) : typeKey a = typeKey b := by
  simp only [typeKey_eq_join, keyParts, List.contains_iff_mem, hconst, hnamed, hmarkers]

/-- The tokens that name a regular type are whole, and none of them is `const`. -/
theorem whole_of_mem_namedTokens {t k : Text} (ht : IsRegular t) (hk : k ∈ namedTokens t) :
    k ≠ [] ∧ Whole 0 k ∧ k ≠ constToken := by
  obtain ⟨hmem, hmodifier⟩ := List.mem_filter.mp hk
  rw [Bool.not_eq_true', isModifier_eq_false_iff] at hmodifier
  rcases isPlainToken_of_mem_typeTokens ht hmem with hmarker | ⟨hne, hwhole⟩
  · simp [hmodifier.1] at hmarker
  · exact ⟨hne, hwhole, hmodifier.2⟩

/-- Tightening the tokens that name a regular type gives no modifier. -/
theorem isModifier_tighten {t k : Text} (ht : IsRegular t) (hk : k ∈ namedTokens t) :
    isModifier (tighten k) = false := by
  obtain ⟨-, hwhole, hconst⟩ := whole_of_mem_namedTokens ht hk
  refine isModifier_eq_false_iff.mpr ⟨(hwhole.tightenFrom false).isMarker_eq_false, fun h => ?_⟩
  exact hconst (hwhole.eq_constToken_of_tighten h)

/-- `const` is a whole token. -/
theorem whole_constToken : Whole 0 constToken := by
  have hall : constToken.all (fun c => c ≠ '<' ∧ c ≠ '>' ∧ c ≠ '[' ∧ isBlank c = false ∧
      ¬ (c = '*' ∨ c = '&')) = true := by decide
  have hletters : ∀ c ∈ constToken, c ≠ '<' ∧ c ≠ '>' ∧ c ≠ '[' ∧ isBlank c = false ∧
      ¬ (c = '*' ∨ c = '&') := fun c hc => of_decide_eq_true (List.all_eq_true.mp hall c hc)
  generalize constToken = k at hletters
  induction k with
  | nil => exact Whole.nil
  | cons c r ih =>
      obtain ⟨hopen, hclose, hbound, hblank, hmarker⟩ := hletters c List.mem_cons_self
      exact Whole.outside hopen hclose hbound hblank hmarker
        (ih fun c hc => hletters c (List.mem_cons_of_mem _ hc))

/-- **A key is read back**: its tokens are the parts it was built from, then the markers. -/
theorem typeTokens_typeKey {t : Text} (ht : IsRegular t) :
    typeTokens (typeKey t) = keyParts t ++ markerTokens t := by
  rw [typeKey_eq_join]
  refine typeTokens_join (fun k hk => ?_) fun m hm => (List.mem_filter.mp hm).2
  rcases List.mem_append.mp hk with hk | hk
  · split at hk
    · obtain rfl : k = constToken := List.mem_singleton.mp hk
      exact ⟨by decide, whole_constToken⟩
    · simp at hk
  · obtain ⟨l, hl, rfl⟩ := List.mem_map.mp hk
    obtain ⟨hne, hwhole, -⟩ := whole_of_mem_namedTokens ht hl
    exact ⟨hwhole.tighten_ne_nil hne, hwhole.tightenFrom false⟩

/-- A key says `const` when the type does. -/
theorem constToken_mem_typeTokens_typeKey {t : Text} (ht : IsRegular t) :
    constToken ∈ typeTokens (typeKey t) ↔ constToken ∈ typeTokens t := by
  have hnamed : constToken ∉ (namedTokens t).map tighten := by
    intro h
    obtain ⟨k, hk, htight⟩ := List.mem_map.mp h
    exact (isModifier_eq_false_iff.mp (isModifier_tighten ht hk)).2 htight
  have hmarkers : constToken ∉ markerTokens t := fun h =>
    absurd (List.mem_filter.mp h).2 (by decide)
  rw [typeTokens_typeKey ht, keyParts]
  split <;> simp_all

/-- A key names the type by the same tokens, tightened. -/
theorem namedTokens_typeKey {t : Text} (ht : IsRegular t) :
    namedTokens (typeKey t) = (namedTokens t).map tighten := by
  have hconst : (if (typeTokens t).contains constToken then [constToken] else []).filter
      (fun k => !isModifier k) = [] := by
    split <;> rfl
  have hnamed : ((namedTokens t).map tighten).filter (fun k => !isModifier k)
      = (namedTokens t).map tighten := by
    refine List.filter_eq_self.mpr fun k hk => ?_
    obtain ⟨l, hl, rfl⟩ := List.mem_map.mp hk
    simp [isModifier_tighten ht hl]
  have hmarkers : (markerTokens t).filter (fun k => !isModifier k) = [] := by
    refine List.filter_eq_nil_iff.mpr fun k hk => ?_
    simp [isModifier, (List.mem_filter.mp hk).2]
  rw [namedTokens, typeTokens_typeKey ht, keyParts, List.filter_append, List.filter_append, hconst,
    hnamed, hmarkers, List.nil_append, List.append_nil]

/-- A key has the markers of the type. -/
theorem markerTokens_typeKey {t : Text} (ht : IsRegular t) :
    markerTokens (typeKey t) = markerTokens t := by
  have hconst : (if (typeTokens t).contains constToken then [constToken] else []).filter isMarker
      = [] := by
    split <;> rfl
  have hnamed : ((namedTokens t).map tighten).filter isMarker = [] := by
    refine List.filter_eq_nil_iff.mpr fun k hk => ?_
    obtain ⟨l, hl, rfl⟩ := List.mem_map.mp hk
    simp [(isModifier_eq_false_iff.mp (isModifier_tighten ht hl)).1]
  have hmarkers : (markerTokens t).filter isMarker = markerTokens t :=
    List.filter_eq_self.mpr fun k hk => (List.mem_filter.mp hk).2
  rw [markerTokens, typeTokens_typeKey ht, keyParts, List.filter_append, List.filter_append, hconst,
    hnamed, hmarkers, List.nil_append, List.nil_append]

/-! ### Exactness -/

/-- Two lists of tokens have the same tight forms exactly when tightening makes them equal. -/
theorem exists_tightForms_iff {ks ls : List Text} :
    (∃ ts, List.Forall₂ TightForm ks ts ∧ List.Forall₂ TightForm ls ts)
      ↔ ks.map tighten = ls.map tighten := by
  have hforms : ∀ ks ts, List.Forall₂ TightForm ks ts ↔ ks.map tighten = ts := by
    intro ks ts
    have hform : TightForm = fun t k => tighten t = k := by
      funext t k
      exact propext tightForm_iff
    rw [hform, ← List.forall₂_map_left_iff, List.forall₂_eq_eq_eq]
  simp only [hforms]
  exact ⟨fun ⟨_, hk, hl⟩ => hk.trans hl.symm, fun h => ⟨_, h, rfl⟩⟩

/-- **The key is exact.** Regular types have the same key exactly when `const` is a token of both or
of neither, the tokens that name them are equal once blanks next to template marks are taken away,
and their markers are equal; and the key of a regular type is its own key. -/
theorem typeKey_eq_iff_parts {a b : Text} (ha : IsRegular a) (hb : IsRegular b) :
    (typeKey a = typeKey b ↔
      (constToken ∈ typeTokens a ↔ constToken ∈ typeTokens b) ∧
      (∃ ts, List.Forall₂ TightForm (namedTokens a) ts ∧
        List.Forall₂ TightForm (namedTokens b) ts) ∧
      markerTokens a = markerTokens b) ∧
    typeKey (typeKey a) = typeKey a := by
  refine ⟨⟨fun h => ?_, fun ⟨hconst, hnamed, hmarkers⟩ => ?_⟩, ?_⟩
  · rw [exists_tightForms_iff, ← constToken_mem_typeTokens_typeKey ha,
      ← constToken_mem_typeTokens_typeKey hb, ← namedTokens_typeKey ha, ← namedTokens_typeKey hb,
      ← markerTokens_typeKey ha, ← markerTokens_typeKey hb, h]
    exact ⟨Iff.rfl, rfl, rfl⟩
  · exact typeKey_eq_of_parts hconst (exists_tightForms_iff.mp hnamed) hmarkers
  · refine typeKey_eq_of_parts (constToken_mem_typeTokens_typeKey ha) ?_ (markerTokens_typeKey ha)
    rw [namedTokens_typeKey ha, List.map_map]
    exact List.map_congr_left fun k _ => tighten_tighten k

/-- Two spellings of one type: blanks next to template marks and the place of `const` differ. -/
theorem typeKey_eq_iff_parts_spellings :
    IsRegular "const map< int,pair<char *, T> > *&" ∧
      IsRegular "map<int, pair<char * ,T>>  const* &" ∧
      typeKey "const map< int,pair<char *, T> > *&"
        = typeKey "map<int, pair<char * ,T>>  const* &" := by
  have ha : IsRegular "const map< int,pair<char *, T> > *&" := by decide
  have hb : IsRegular "map<int, pair<char * ,T>>  const* &" := by decide
  refine ⟨ha, hb, (typeKey_eq_iff_parts ha hb).1.mpr ⟨by decide, ?_, by decide⟩⟩
  exact exists_tightForms_iff.mpr (by decide)

end Sharpen
