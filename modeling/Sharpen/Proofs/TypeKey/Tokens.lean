import Sharpen.Decl.TypeKey

/-!
# Tokens That Are Read Back

Cutting a type into tokens passes over the text once, with the depth of template brackets as its
state. This module separates the state of that pass from what it gathers, and describes the tokens
it can find in a **regular** text: one without `[` in which all template brackets are closed at the
end.

Plain tokens are those that are read back: cut on its own, a plain token gives itself. So cutting a
text into tokens and joining them with spaces can be repeated without any change. Regular texts are
those that types are written in, and in them all tokens are plain.

## Main definitions

* `TokenState.after` — where the pass stands behind the text `t`.
* `IsRegular` — a regular text: no array bound, and no template bracket left open.
* `Whole` — a text that, reached at depth `d` of template brackets, stays inside one token and ends
  outside of all brackets.
* `IsPlainToken` — a token a regular text can have: a marker, or a text that is not empty and whole.

## Main results

* `typeTokensFrom_cons` — the pass as a step: one character changes the state (`TokenState.next`)
  and is put in front of the tokens behind it (`TokenState.put`).
* `isPlainToken_of_mem_typeTokens` — every token of a regular text is `*`, `&` or **whole** (`Whole
  0`): read on its own, it is one token again.
* `typeTokens_join` — whole tokens with one space between them, followed by markers in a row, are
  read back as exactly these tokens and these markers.
-/

namespace Sharpen

/-! ### The pass, one character at a time -/

namespace TokenState

/-- Where the pass stands behind the character `c`. -/
def next (s : TokenState) (c : Char) : TokenState :=
  if c == '[' && s.angles == 0 then { s with inArray := true }
  else if s.inArray then (if c == ']' then { s with inArray := false } else s)
  else if c == '<' then { s with angles := s.angles + 1 }
  else if c == '>' then { s with angles := s.angles - 1 }
  else s

/-- Where the pass stands behind the text `t`. -/
def after (s : TokenState) (t : Text) : TokenState :=
  t.foldl next s

/-- What the character `c` makes of the tokens that are found behind it. -/
def put (s : TokenState) (c : Char) (p : Text × List Text) : Text × List Text :=
  if c == '[' && s.angles == 0 then ([], (c :: p.1) :: p.2)
  else if s.inArray then (if c == ']' then ([c], flushToken p.1 p.2) else (c :: p.1, p.2))
  else if c == '<' || c == '>' || 0 < s.angles then (c :: p.1, p.2)
  else if isBlank c then ([], flushToken p.1 p.2)
  else if c == '*' || c == '&' then ([], [c] :: flushToken p.1 p.2)
  else (c :: p.1, p.2)

end TokenState

/-- **The pass as a step**: a character moves the state on and is put in front of what the rest of
the text gives from there. -/
theorem typeTokensFrom_cons (s : TokenState) (c : Char) (r : Text) :
    typeTokensFrom s (c :: r) = s.put c (typeTokensFrom (s.next c) r) := by
  rw [typeTokensFrom, TokenState.put, TokenState.next]
  by_cases hbound : (c == '[' && s.angles == 0) = true
  · simp only [hbound, if_true]
  by_cases harray : s.inArray = true
  · by_cases hend : (c == ']') = true
    · simp only [hbound, harray, hend, if_true]
      rfl
    · simp only [hbound, harray, hend, if_true]
      rfl
  by_cases hopen : c = '<'
  · subst hopen
    simp [harray]
  by_cases hclose : c = '>'
  · subst hclose
    simp [harray]
  by_cases hdeep : 0 < s.angles
  · simp [hbound, harray, hopen, hclose, hdeep]
  · simp [hbound, harray, hopen, hclose, hdeep]

/-- A regular text: no array bound, and no template bracket left open. -/
def IsRegular (t : Text) : Prop :=
  '[' ∉ t ∧ (({} : TokenState).after t).angles = 0

instance (t : Text) : Decidable (IsRegular t) :=
  inferInstanceAs (Decidable (_ ∧ _))

/-! ### Steps outside of array bounds -/

section

variable {d : Nat} {c : Char} (p : Text × List Text)

/-- Only brackets move the state. -/
theorem TokenState.next_of_ne (hbound : c ≠ '[') (hopen : c ≠ '<') (hclose : c ≠ '>') :
    (⟨d, false⟩ : TokenState).next c = ⟨d, false⟩ := by
  simp [TokenState.next, hbound, hopen, hclose]

/-- Inside template brackets every character but a bracket prolongs the token. -/
theorem TokenState.put_inside :
    (⟨d + 1, false⟩ : TokenState).put c p = (c :: p.1, p.2) := by
  simp [TokenState.put]

/-- Outside of them a blank ends a token. -/
theorem TokenState.put_blank (h : isBlank c = true) :
    (⟨0, false⟩ : TokenState).put c p = ([], flushToken p.1 p.2) := by
  have hbound : c ≠ '[' := by rintro rfl; revert h; decide
  have hopen : c ≠ '<' := by rintro rfl; revert h; decide
  have hclose : c ≠ '>' := by rintro rfl; revert h; decide
  simp [TokenState.put, hbound, hopen, hclose, h]

/-- A marker ends a token and is one itself. -/
theorem TokenState.put_marker (h : c = '*' ∨ c = '&') :
    (⟨0, false⟩ : TokenState).put c p = ([], [c] :: flushToken p.1 p.2) := by
  rcases h with rfl | rfl <;> rfl

/-- Any other character prolongs the token. -/
theorem TokenState.put_outside (hbound : c ≠ '[') (hblank : isBlank c = false)
    (hmarker : ¬ (c = '*' ∨ c = '&')) :
    (⟨0, false⟩ : TokenState).put c p = (c :: p.1, p.2) := by
  simp only [not_or] at hmarker
  simp [TokenState.put, hbound, hblank, hmarker]

end

/-! ### Whole tokens -/

/-- A text that, reached at depth `d` of template brackets, stays inside one token and ends outside
of all brackets. -/
inductive Whole : Nat → Text → Prop
  | nil : Whole 0 []
  | opens {d : Nat} {r : Text} : Whole (d + 1) r → Whole d ('<' :: r)
  | closes {d : Nat} {r : Text} : Whole (d - 1) r → Whole d ('>' :: r)
  | inside {d : Nat} {c : Char} {r : Text} :
      c ≠ '<' → c ≠ '>' → c ≠ '[' → Whole (d + 1) r → Whole (d + 1) (c :: r)
  | outside {c : Char} {r : Text} :
      c ≠ '<' → c ≠ '>' → c ≠ '[' → isBlank c = false → ¬ (c = '*' ∨ c = '&') →
      Whole 0 r → Whole 0 (c :: r)

/-- A whole text in front of another one only prolongs its first token. -/
theorem Whole.typeTokensFrom_append {d : Nat} {t : Text} (h : Whole d t) (v : Text) :
    typeTokensFrom ⟨d, false⟩ (t ++ v)
      = (t ++ (typeTokensFrom {} v).1, (typeTokensFrom {} v).2) := by
  induction h with
  | nil => rfl
  | opens _ ih =>
      rw [List.cons_append, typeTokensFrom_cons]
      simp [TokenState.next, TokenState.put, ih]
  | closes _ ih =>
      rw [List.cons_append, typeTokensFrom_cons]
      simp [TokenState.next, TokenState.put, ih]
  | inside hopen hclose hbound _ ih =>
      rw [List.cons_append, typeTokensFrom_cons, TokenState.next_of_ne hbound hopen hclose, ih,
        TokenState.put_inside]
      rfl
  | outside hopen hclose hbound hblank hmarker _ ih =>
      rw [List.cons_append, typeTokensFrom_cons, TokenState.next_of_ne hbound hopen hclose, ih,
        TokenState.put_outside _ hbound hblank hmarker]
      rfl

/-- A token a regular text can have: a marker, or a text that is not empty and whole. -/
def IsPlainToken (k : Text) : Prop :=
  isMarker k = true ∨ (k ≠ [] ∧ Whole 0 k)

/-- A token that has just ended at depth zero joins plain tokens as a plain token. -/
theorem isPlainToken_of_mem_flushToken {k token : Text} {tokens : List Text}
    (htoken : Whole 0 token) (htokens : ∀ k ∈ tokens, IsPlainToken k)
    (hk : k ∈ flushToken token tokens) : IsPlainToken k := by
  rw [flushToken] at hk
  split at hk
  · exact htokens k hk
  · rename_i hne
    rcases List.mem_cons.mp hk with rfl | hk
    · exact Or.inr ⟨by simpa using hne, htoken⟩
    · exact htokens k hk

/-- What the pass finds in a text without `[`, reached at depth `d`, if it ends at depth zero: the
token it starts inside of is whole from that depth on, and the others are plain. Outside of
brackets, a blank or a marker ends the token behind it. -/
theorem typeTokensFrom_plain {d : Nat} {t : Text} (hbound : '[' ∉ t)
    (hend : ((⟨d, false⟩ : TokenState).after t).angles = 0) :
    Whole d (typeTokensFrom ⟨d, false⟩ t).1 ∧
      ∀ k ∈ (typeTokensFrom ⟨d, false⟩ t).2, IsPlainToken k := by
  induction t generalizing d with
  | nil =>
      obtain rfl : d = 0 := hend
      exact ⟨Whole.nil, by simp [typeTokensFrom]⟩
  | cons c r ih =>
      have hc : c ≠ '[' := fun h => hbound (h ▸ List.mem_cons_self)
      have hr : '[' ∉ r := fun h => hbound (List.mem_cons_of_mem c h)
      rw [TokenState.after, List.foldl_cons] at hend
      rw [typeTokensFrom_cons]
      by_cases hopen : c = '<'
      · subst hopen
        obtain ⟨hwhole, hplain⟩ := ih (d := d + 1) hr hend
        exact ⟨Whole.opens hwhole, hplain⟩
      by_cases hclose : c = '>'
      · subst hclose
        obtain ⟨hwhole, hplain⟩ := ih (d := d - 1) hr hend
        exact ⟨Whole.closes hwhole, hplain⟩
      rw [TokenState.next_of_ne hc hopen hclose] at hend ⊢
      obtain ⟨hwhole, hplain⟩ := ih hr hend
      cases d with
      | succ d =>
          rw [TokenState.put_inside]
          exact ⟨Whole.inside hopen hclose hc hwhole, hplain⟩
      | zero =>
          have hflush := fun k => isPlainToken_of_mem_flushToken (k := k) hwhole hplain
          by_cases hblank : isBlank c = true
          · rw [TokenState.put_blank _ hblank]
            exact ⟨Whole.nil, hflush⟩
          by_cases hmarker : c = '*' ∨ c = '&'
          · rw [TokenState.put_marker _ hmarker]
            refine ⟨Whole.nil, fun k hk => ?_⟩
            rcases List.mem_cons.mp hk with rfl | hk
            · exact Or.inl (by simpa [isMarker] using hmarker)
            · exact hflush k hk
          · rw [TokenState.put_outside _ hc (by simpa using hblank) hmarker]
            exact ⟨Whole.outside hopen hclose hc (by simpa using hblank) hmarker hwhole, hplain⟩

/-- **Every token of a regular text is a marker or whole.** -/
theorem isPlainToken_of_mem_typeTokens {t k : Text} (ht : IsRegular t) (hk : k ∈ typeTokens t) :
    IsPlainToken k := by
  obtain ⟨hwhole, hplain⟩ := typeTokensFrom_plain ht.1 ht.2
  exact isPlainToken_of_mem_flushToken hwhole hplain hk

/-! ### Reading tokens back -/

/-- A whole token and a space in front of a text add just this token. -/
theorem Whole.typeTokens_append_space {k : Text} (h : Whole 0 k) (hne : k ≠ []) (v : Text) :
    typeTokens (k ++ ' ' :: v) = k :: typeTokens v := by
  rw [typeTokens, h.typeTokensFrom_append, typeTokensFrom_cons, TokenState.put_blank _ (by decide)]
  simp [flushToken, hne, typeTokens, TokenState.next]

/-- A whole token is the only token of itself. -/
theorem Whole.typeTokens_eq {k : Text} (h : Whole 0 k) (hne : k ≠ []) : typeTokens k = [k] := by
  have happ := h.typeTokensFrom_append []
  rw [List.append_nil] at happ
  rw [typeTokens, happ]
  simp [typeTokensFrom, flushToken, hne]

/-- Markers that stand in a row are read back one by one. -/
theorem typeTokens_flatten_markers {ms : List Text} (h : ∀ m ∈ ms, isMarker m = true) :
    typeTokens ms.flatten = ms := by
  induction ms with
  | nil => rfl
  | cons m r ih =>
      obtain ⟨c, hc, rfl⟩ : ∃ c, (c = '*' ∨ c = '&') ∧ m = [c] := by
        simpa [isMarker, or_and_right, exists_or] using h m List.mem_cons_self
      have hr := ih fun m hm => h m (List.mem_cons_of_mem _ hm)
      have hnext : ({} : TokenState).next c = {} := by rcases hc with rfl | rfl <;> rfl
      rw [List.flatten_cons, List.singleton_append, typeTokens, typeTokensFrom_cons,
        TokenState.put_marker _ hc, hnext]
      exact congrArg ([c] :: ·) hr

/-- **Reading back.** Whole tokens with a space between them, and markers in a row behind them, have
exactly these tokens and these markers. -/
theorem typeTokens_join {ks ms : List Text} (hks : ∀ k ∈ ks, k ≠ [] ∧ Whole 0 k)
    (hms : ∀ m ∈ ms, isMarker m = true) :
    typeTokens (Text.join " " (ks ++ if ms.flatten.isEmpty then [] else [ms.flatten]))
      = ks ++ ms := by
  induction ks with
  | nil =>
      have hread := typeTokens_flatten_markers hms
      split
      · rename_i hempty
        rw [List.isEmpty_iff.mp hempty] at hread
        simpa [Text.join] using hread
      · simpa [Text.join] using hread
  | cons k r ih =>
      obtain ⟨hne, hwhole⟩ := hks k List.mem_cons_self
      have hr := ih fun k hk => hks k (List.mem_cons_of_mem _ hk)
      rw [List.cons_append, List.cons_append]
      generalize hrest : (r ++ if ms.flatten.isEmpty then [] else [ms.flatten]) = rest at hr ⊢
      cases rest with
      | nil =>
          have hempty : r ++ ms = [] := by rw [← hr]; rfl
          rw [hempty]
          simpa [Text.join] using hwhole.typeTokens_eq hne
      | cons l rest =>
          have hjoin : Text.join " " (k :: l :: rest) = k ++ ' ' :: Text.join " " (l :: rest) := by
            simp [Text.join, List.intercalate_cons_cons]
          rw [hjoin, hwhole.typeTokens_append_space hne, hr]

end Sharpen
