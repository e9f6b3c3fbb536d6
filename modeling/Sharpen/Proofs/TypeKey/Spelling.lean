import Mathlib.Data.List.DropRight
import Sharpen.Proofs.TypeKey.Tokens

/-!
# Spellings of a Row of Tokens

A type or a declaration is written as a row of tokens with blanks between them. Next to `*` and `&`
the blanks may be missing, and nowhere does it matter how many there are. `Spells` is this relation
between tokens and texts.

Spelling is a relation because there are many texts for one row of tokens. What is proved of all
spellings of a row holds of a declaration however it is written, and the spelling that the program
itself writes is one of them.

## Main definitions

* `endsToken` — whether a text starts with a character that ends the token before it, or is empty.
* `Spells` — the text spells the row of tokens: blanks may stand between any two of them, and have
  to where neither of the two is a marker.

## Main results

* `Spells.typeTokens_eq` — plain tokens are read back from every text that spells them.
* `spells_joinTokens`, `spells_join` — the settled spacing is one of the spellings, and so are the
  tokens with one space between them.
-/

namespace Sharpen

/-! ### Texts without blanks at their ends -/

namespace Text

variable {t gap : Text}

/-- A text without blanks in front starts with code. -/
theorem isBlank_head {c : Char} {r : Text} (h : Text.trimStart (c :: r) = c :: r) :
    Sharpen.isBlank c = false := by
  by_contra hblank
  have hle := (List.dropWhile_suffix (l := r) Sharpen.isBlank).length_le
  rw [trimStart, List.dropWhile_cons_of_pos (by simpa using hblank)] at h
  rw [h, List.length_cons] at hle
  omega

/-- A text without blanks behind ends with code. -/
theorem isBlank_last {c : Char} {r : Text} (h : Text.trimEnd (r ++ [c]) = r ++ [c]) :
    Sharpen.isBlank c = false := by
  have hrev := List.reverse_eq_iff.mp h
  rw [List.reverse_append] at hrev
  exact isBlank_head hrev

/-- A text that starts with code keeps its start, whatever follows. -/
theorem trimStart_append (ht : t.trimStart = t) (hne : t ≠ []) (v : Text) :
    Text.trimStart (t ++ v) = t ++ v := by
  cases t with
  | nil => exact absurd rfl hne
  | cons c r =>
      rw [trimStart, List.cons_append, List.dropWhile_cons_of_neg (by simp [isBlank_head ht])]

/-- A text that ends with code keeps its end, whatever precedes it. -/
theorem trimEnd_append (ht : t.trimEnd = t) (hne : t ≠ []) (v : Text) :
    Text.trimEnd (v ++ t) = v ++ t := by
  have hstart : Text.trimStart t.reverse = t.reverse := List.reverse_eq_iff.mp ht
  have happ := trimStart_append hstart (by simpa using hne) v.reverse
  rw [← List.reverse_append] at happ
  exact List.reverse_eq_iff.mpr happ

/-- Blanks in front are taken off. -/
theorem trimStart_blank_append (hgap : gap.isBlank = true) (t : Text) :
    Text.trimStart (gap ++ t) = t.trimStart := by
  rw [trimStart, List.dropWhile_append, if_pos]
  · rfl
  · rw [List.isEmpty_iff, List.dropWhile_eq_nil_iff]
    exact List.all_eq_true.mp hgap

/-- Blanks behind are taken off. -/
theorem trimEnd_append_blank (hgap : gap.isBlank = true) (t : Text) :
    Text.trimEnd (t ++ gap) = t.trimEnd := by
  have hrev : Text.isBlank gap.reverse = true := by
    rw [isBlank, List.all_reverse]
    exact hgap
  have happ := trimStart_blank_append hrev t.reverse
  rw [← List.reverse_append] at happ
  exact congrArg List.reverse happ

/-- Blanks in front of a text with code in it are not those behind it. -/
theorem trimStart_append_of_isBlank_eq_false (ht : t.isBlank = false) (v : Text) :
    Text.trimStart (t ++ v) = t.trimStart ++ v := by
  rw [trimStart, List.dropWhile_append, if_neg]
  · rfl
  · rw [List.isEmpty_iff, List.dropWhile_eq_nil_iff, ← List.all_eq_true]
    exact Bool.eq_false_iff.mp ht

/-- Blanks behind a text with code in it are not those in front of it. -/
theorem trimEnd_append_of_isBlank_eq_false (ht : t.isBlank = false) (v : Text) :
    Text.trimEnd (v ++ t) = v ++ t.trimEnd := by
  have hrev : Text.isBlank t.reverse = false := by
    rw [isBlank, List.all_reverse]
    exact ht
  have happ := trimStart_append_of_isBlank_eq_false hrev v.reverse
  rw [← List.reverse_append] at happ
  exact (congrArg List.reverse happ).trans (by rw [List.reverse_append, List.reverse_reverse]; rfl)

/-- Nothing is left of blanks, and of nothing else. -/
theorem isEmpty_trimEnd (t : Text) : t.trimEnd.isEmpty = t.isBlank := by
  rw [Bool.eq_iff_iff, List.isEmpty_iff, isBlank, List.all_eq_true]
  exact List.rdropWhile_eq_nil_iff

/-- Without the blanks at its end, a text has none to trim. -/
theorem trimEnd_trimEnd (t : Text) : t.trimEnd.trimEnd = t.trimEnd :=
  List.rdropWhile_idempotent Sharpen.isBlank t

/-- A text is blank exactly when it is without the blanks at its end. -/
theorem isBlank_trimEnd (t : Text) : t.trimEnd.isBlank = t.isBlank := by
  rw [← isEmpty_trimEnd, trimEnd_trimEnd, isEmpty_trimEnd]

/-- A text is left as it is exactly when it has no blanks at either end. -/
theorem trim_eq_self_iff : t.trim = t ↔ t.trimStart = t ∧ t.trimEnd = t := by
  refine ⟨fun h => ?_, fun ⟨hstart, hend⟩ => by rw [trim, hstart, hend]⟩
  have hsuffix : t.trimStart <:+ t := List.dropWhile_suffix _
  have hle : t.length ≤ t.trimStart.length := by
    have hend : (Text.trimEnd t.trimStart).length ≤ t.trimStart.length := by
      have hdrop := (List.dropWhile_suffix (l := t.trimStart.reverse) Sharpen.isBlank).length_le
      simpa [trimEnd, dropEndWhile] using hdrop
    rwa [← trim, h] at hend
  have hstart : t.trimStart = t := hsuffix.eq_of_length_le hle
  exact ⟨hstart, by rw [trim, hstart] at h; exact h⟩

/-- Blanks around a trimmed text are all that trimming takes off. -/
theorem trim_pad {gap' : Text} (ht : t.trim = t) (hne : t ≠ []) (hgap : gap.isBlank = true)
    (hgap' : gap'.isBlank = true) : Text.trim (gap ++ t ++ gap') = t := by
  obtain ⟨hstart, hend⟩ := trim_eq_self_iff.mp ht
  rw [trim, List.append_assoc, trimStart_blank_append hgap, trimStart_append hstart hne,
    trimEnd_append_blank hgap', hend]

/-- Blanks are dropped up to a character that is none. -/
theorem exists_trimStart_append {c : Char} (hc : Sharpen.isBlank c = false) (z r : Text) :
    ∃ z', Text.trimStart (z ++ c :: r) = z' ++ c :: r := by
  rw [Text.trimStart, List.dropWhile_append]
  split
  · exact ⟨[], List.dropWhile_cons_of_neg (by simp [hc])⟩
  · exact ⟨_, rfl⟩

/-- What stands before a character that is not blank stays where the end is trimmed. -/
theorem exists_trimEnd_append {x : Char} (hx : Sharpen.isBlank x = false) (t u : Text) :
    ∃ v, Text.trimEnd (t ++ x :: u) = t ++ x :: v := by
  obtain ⟨v, hv⟩ := Text.exists_trimStart_append hx u.reverse t.reverse
  refine ⟨v.reverse, ?_⟩
  rw [Text.trimEnd, Text.dropEndWhile, List.reverse_append, List.reverse_cons, List.append_assoc,
    List.singleton_append, ← Text.trimStart, hv]
  simp

/-- What has been trimmed starts with no blank. -/
theorem trimStart_trim (t : Text) : t.trim.trimStart = t.trim := by
  rw [Text.trim]
  cases ht : t.trimStart with
  | nil => rfl
  | cons c r =>
      have hc : Sharpen.isBlank c = false := by
        have hhead := List.head?_dropWhile_not Sharpen.isBlank t
        rw [← Text.trimStart, ht] at hhead
        simpa using hhead
      obtain ⟨v, hv⟩ := Text.exists_trimEnd_append hc [] r
      rw [List.nil_append] at hv
      rw [hv]
      exact List.dropWhile_cons_of_neg (by simp [hc])

/-- Trimming twice is trimming once. -/
theorem trim_trim (t : Text) : t.trim.trim = t.trim := by
  rw [trim, trimStart_trim]
  exact trimEnd_trimEnd t.trimStart

end Text

/-! ### Plain tokens -/

/-- A whole token starts with code. -/
theorem Whole.trimStart_eq {k : Text} (h : Whole 0 k) : k.trimStart = k := by
  cases h with
  | nil => rfl
  | opens _ => rfl
  | closes _ => rfl
  | outside _ _ _ hblank _ _ => rw [Text.trimStart, List.dropWhile_cons_of_neg (by simp [hblank])]

/-- A whole token ends with code, for it ends outside of template brackets. -/
theorem Whole.trimEnd_eq {d : Nat} {k : Text} (h : Whole d k) : k.trimEnd = k := by
  have hcons : ∀ {c : Char} {r : Text}, (r = [] → isBlank c = false) → r.trimEnd = r →
      Text.trimEnd (c :: r) = c :: r := by
    intro c r hc hr
    by_cases hnil : r = []
    · subst hnil
      simp [Text.trimEnd, Text.dropEndWhile, hc rfl]
    · exact Text.trimEnd_append hr hnil [c]
  induction h with
  | nil => rfl
  | opens hr ih => exact hcons (fun _ => by decide) ih
  | closes hr ih => exact hcons (fun _ => by decide) ih
  | inside _ _ _ hr ih => exact hcons (fun hnil => by subst hnil; cases hr) ih
  | outside _ _ _ hblank _ _ ih => exact hcons (fun _ => hblank) ih

/-- A plain token has no blanks at its ends. -/
theorem IsPlainToken.trim_eq {k : Text} (h : IsPlainToken k) : k.trim = k := by
  rcases h with hmarker | ⟨-, hwhole⟩
  · simp only [isMarker, Bool.or_eq_true, beq_iff_eq] at hmarker
    rcases hmarker with rfl | rfl <;> rfl
  · exact Text.trim_eq_self_iff.mpr ⟨hwhole.trimStart_eq, hwhole.trimEnd_eq⟩

/-- A plain token is not empty. -/
theorem IsPlainToken.ne_nil {k : Text} (h : IsPlainToken k) : k ≠ [] := by
  rcases h with hmarker | ⟨hne, -⟩
  · rintro rfl
    revert hmarker
    decide
  · exact hne

/-! ### Reading a token -/

/-- Whether a text starts with a character that ends the token before it, or is empty. -/
def endsToken (v : Text) : Bool :=
  v.head?.all fun c => isBlank c || c == '*' || c == '&'

/-- Such a text starts outside of any token. -/
theorem typeTokensFrom_fst_eq_nil {v : Text} (h : endsToken v = true) :
    (typeTokensFrom {} v).1 = [] := by
  cases v with
  | nil => rfl
  | cons c r =>
      rw [typeTokensFrom_cons]
      by_cases hblank : isBlank c = true
      · exact congrArg Prod.fst (TokenState.put_blank _ hblank)
      · have hmarker : c = '*' ∨ c = '&' := by simpa [endsToken, hblank] using h
        exact congrArg Prod.fst (TokenState.put_marker _ hmarker)

/-- A plain token is read where it ends: in front of a text that ends it, or anyhow if it is a
marker. -/
theorem IsPlainToken.typeTokens_append {k v : Text} (hk : IsPlainToken k)
    (hends : isMarker k = true ∨ endsToken v = true) : typeTokens (k ++ v) = k :: typeTokens v := by
  have hmarker : isMarker k = true → typeTokens (k ++ v) = k :: typeTokens v := by
    intro h
    simp only [isMarker, Bool.or_eq_true, beq_iff_eq] at h
    rcases h with rfl | rfl <;> rfl
  rcases hk with hk | ⟨hne, hwhole⟩
  · exact hmarker hk
  rcases hends with hk | hends
  · exact hmarker hk
  · have hnil := typeTokensFrom_fst_eq_nil hends
    have hread : typeTokens v = (typeTokensFrom {} v).2 := by
      simp [typeTokens, hnil, flushToken]
    rw [typeTokens, hwhole.typeTokensFrom_append, hread, hnil, List.append_nil]
    simp [flushToken, hne]

/-- Blanks in front of a text add no token. -/
theorem typeTokens_blank_append {gap : Text} (hgap : gap.isBlank = true) (v : Text) :
    typeTokens (gap ++ v) = typeTokens v := by
  induction gap with
  | nil => rfl
  | cons c r ih =>
      simp only [Text.isBlank, List.all_cons, Bool.and_eq_true] at hgap
      have hnext : ({} : TokenState).next c = {} := by
        refine TokenState.next_of_ne ?_ ?_ ?_ <;>
          · rintro rfl
            exact absurd hgap.1 (by decide)
      rw [List.cons_append, ← ih hgap.2, typeTokens, typeTokensFrom_cons,
        TokenState.put_blank _ hgap.1, hnext]
      rfl

/-! ### Spellings -/

/-- The text spells the row of tokens: blanks may stand between any two of them, and have to where
neither of the two is a marker. -/
inductive Spells : List Text → Text → Prop
  | last (k : Text) : Spells [k] k
  | cons {k l : Text} {ks : List Text} {gap t : Text} :
      gap.isBlank = true → (gap ≠ [] ∨ isMarker k = true ∨ isMarker l = true) →
      Spells (l :: ks) t → Spells (k :: l :: ks) (k ++ gap ++ t)

namespace Spells

variable {ks : List Text} {t : Text}

/-- A spelling starts with the first token. -/
theorem head {k : Text} (h : Spells (k :: ks) t) : ∃ v, t = k ++ v := by
  cases h with
  | last => exact ⟨[], (List.append_nil t).symm⟩
  | cons _ _ _ => exact ⟨_, List.append_assoc _ _ _⟩

/-- A text that spells a row with a marker in front ends the token before it. -/
theorem endsToken {l : Text} (h : Spells (l :: ks) t) (hl : isMarker l = true) :
    endsToken t = true := by
  obtain ⟨v, rfl⟩ := h.head
  simp only [isMarker, Bool.or_eq_true, beq_iff_eq] at hl
  rcases hl with rfl | rfl <;> rfl

/-- **Plain tokens are read back from every spelling.** With no blank between them, one of two
tokens is a marker. -/
theorem typeTokens_eq (h : Spells ks t) (hks : ∀ k ∈ ks, IsPlainToken k) : typeTokens t = ks := by
  induction h with
  | last k =>
      have hread := (hks k List.mem_cons_self).typeTokens_append (v := []) (Or.inr rfl)
      rwa [List.append_nil] at hread
  | @cons k l ks gap t hgap hsep ht ih =>
      have hrest := ih fun k hk => hks k (List.mem_cons_of_mem _ hk)
      have hends : isMarker k = true ∨ Sharpen.endsToken (gap ++ t) = true := by
        cases gap with
        | cons c r =>
            simp only [Text.isBlank, List.all_cons, Bool.and_eq_true] at hgap
            exact Or.inr (by simp [Sharpen.endsToken, hgap.1])
        | nil =>
            rcases hsep with hne | hk | hl
            · exact absurd rfl hne
            · exact Or.inl hk
            · exact Or.inr (ht.endsToken hl)
      rw [List.append_assoc, (hks k List.mem_cons_self).typeTokens_append hends,
        typeTokens_blank_append hgap, hrest]

/-- A spelling is not empty. -/
theorem ne_nil (h : Spells ks t) (hks : ∀ k ∈ ks, IsPlainToken k) : t ≠ [] := by
  cases h with
  | last k => exact (hks t List.mem_cons_self).ne_nil
  | cons _ _ _ =>
      have hne := (hks _ List.mem_cons_self).ne_nil
      simp [hne]

/-- A spelling of plain tokens has no blanks at its ends. -/
theorem trim_eq (h : Spells ks t) (hks : ∀ k ∈ ks, IsPlainToken k) : t.trim = t := by
  induction h with
  | last k => exact (hks k List.mem_cons_self).trim_eq
  | @cons k l ks gap t hgap hsep ht ih =>
      have hrest : ∀ k ∈ l :: ks, IsPlainToken k := fun k hk => hks k (List.mem_cons_of_mem _ hk)
      have hk := hks k List.mem_cons_self
      obtain ⟨hstart, -⟩ := Text.trim_eq_self_iff.mp hk.trim_eq
      obtain ⟨-, hend⟩ := Text.trim_eq_self_iff.mp (ih hrest)
      refine Text.trim_eq_self_iff.mpr ⟨?_, ?_⟩
      · rw [List.append_assoc]
        exact Text.trimStart_append hstart hk.ne_nil _
      · exact Text.trimEnd_append hend (ht.ne_nil hrest) _

end Spells

/-! ### Two spellings -/

/-- The tokens with the settled spacing spell themselves. -/
theorem spells_joinTokensAfter (k : Text) (ks : List Text) :
    Spells (k :: ks) (k ++ joinTokensAfter k ks) := by
  induction ks generalizing k with
  | nil =>
      rw [joinTokensAfter, List.append_nil]
      exact Spells.last k
  | cons l ks ih =>
      rw [joinTokensAfter, List.append_assoc, ← List.append_assoc]
      by_cases hmarker : (isMarker l || isMarker k) = true
      · rw [if_pos hmarker]
        rw [Bool.or_eq_true, or_comm] at hmarker
        exact Spells.cons rfl (Or.inr hmarker) (ih l)
      · rw [if_neg hmarker]
        exact Spells.cons (by decide) (Or.inl (by simp)) (ih l)

/-- The settled spacing of plain tokens is a spelling of them. -/
theorem spells_joinTokens {ks : List Text} (hne : ks ≠ []) (hks : ∀ k ∈ ks, IsPlainToken k) :
    Spells ks (joinTokens ks) := by
  cases ks with
  | nil => exact absurd rfl hne
  | cons k ks =>
      have hspells := spells_joinTokensAfter k ks
      rw [joinTokens, hspells.trim_eq hks]
      exact hspells

/-- Tokens with one space between them are a spelling. -/
theorem spells_join {ks : List Text} (hne : ks ≠ []) : Spells ks (Text.join " " ks) := by
  induction ks with
  | nil => exact absurd rfl hne
  | cons k ks ih =>
      cases ks with
      | nil =>
          rw [Text.join, List.intercalate_singleton]
          exact Spells.last k
      | cons l ks =>
          rw [Text.join, List.intercalate_cons_cons, ← Text.join]
          exact Spells.cons (by decide) (Or.inl (by decide)) (ih (by simp))

end Sharpen
