import Mathlib.Data.List.Induction
import Sharpen.Proofs.TypeKey.Tokens

/-!
# What Is Gathered Behind a Text

The pass that cuts a type into tokens is defined from the right: a character is put in front of what
the rest of the text gives. Here it is read from the left. Behind a text some tokens have ended, and
one more may have begun; what follows goes on with it. Each character changes this by one of three
moves: it goes to the token, it ends the token outside of brackets, or it opens an array bound.

Both descriptions give the same tokens, and this one can be used where a text is changed at a place:
what has been gathered before the place is the same, and only what follows goes on in another way.
It is stated for every text, with brackets or without, and closed or not.

## Main definitions

* `Gathers` — what the pass has gathered behind a text.
* `placeBehind` — where the pass stands behind a text.

## Main results

* `Gathers.concat`, `exists_gathers` — one more character, and every text.
* `typeTokensFrom_blanks_inside`, `typeTokensFrom_blanks_outside` — blanks behind the text.
-/

namespace Sharpen

/-! ### One move after the other -/

/-- Flushing a token in front of others is flushing it alone and appending them. -/
theorem flushToken_eq_append (token : Text) (tokens : List Text) :
    flushToken token tokens = flushToken token [] ++ tokens := by
  unfold flushToken
  split <;> rfl

/-- A token that is not empty is put in front. -/
theorem flushToken_of_ne_nil {token : Text} (h : token ≠ []) (tokens : List Text) :
    flushToken token tokens = token :: tokens := by
  simp [flushToken, h]

/-- Where the pass stands behind a text. -/
def placeBehind (u : Text) : TokenState :=
  ({} : TokenState).after u

/-- Behind `u` the pass has gathered the tokens `ended`, and the beginning `current` of the token it
is in. This token is empty where none is open, and never starts with a marker. Inside of brackets it
has the bracket in it; outside of them it has neither a blank nor a marker at its end. -/
structure Gathers (u : Text) (ended : List Text) (current : Text) : Prop where
  typeTokens_append : ∀ w, typeTokens (u ++ w) = ended ++
    flushToken (current ++ (typeTokensFrom (placeBehind u) w).1)
      (typeTokensFrom (placeBehind u) w).2
  isSuffix : current <:+ u
  inside : placeBehind u ≠ {} → '<' ∈ current ∨ '[' ∈ current
  outside : placeBehind u = {} →
    ∀ c, current.getLast? = some c → isBlank c = false ∧ ¬ (c = '*' ∨ c = '&')
  head : ∀ c, current.head? = some c → ¬ (c = '*' ∨ c = '&')
  bound : (placeBehind u).inArray = true → (placeBehind u).angles = 0

section

variable {u current : Text} {ended : List Text} {c : Char}

/-- Behind one more character is the next place. -/
theorem placeBehind_concat (u : Text) (c : Char) :
    placeBehind (u ++ [c]) = (placeBehind u).next c := by
  simp [placeBehind, TokenState.after]

/-- The tokens behind one more character. -/
theorem Gathers.typeTokens_concat (h : Gathers u ended current) (c : Char) (w : Text) :
    typeTokens (u ++ [c] ++ w) = ended ++ flushToken
      (current ++ ((placeBehind u).put c (typeTokensFrom (placeBehind (u ++ [c])) w)).1)
      ((placeBehind u).put c (typeTokensFrom (placeBehind (u ++ [c])) w)).2 := by
  rw [List.append_assoc, List.singleton_append, h.typeTokens_append, typeTokensFrom_cons,
    placeBehind_concat]

/-- A character that goes to the token. -/
theorem Gathers.prolong (h : Gathers u ended current)
    (hput : ∀ p, (placeBehind u).put c p = (c :: p.1, p.2))
    (hinside : (placeBehind u).next c ≠ {} → c = '<' ∨ placeBehind u ≠ {})
    (houtside : (placeBehind u).next c = {} → isBlank c = false ∧ ¬ (c = '*' ∨ c = '&'))
    (hhead : placeBehind u = {} → ¬ (c = '*' ∨ c = '&'))
    (hbound : ((placeBehind u).next c).inArray = true → ((placeBehind u).next c).angles = 0) :
    Gathers (u ++ [c]) ended (current ++ [c]) where
  typeTokens_append w := by
    rw [h.typeTokens_concat, hput, List.append_assoc, List.singleton_append]
  isSuffix := by
    obtain ⟨t, rfl⟩ := h.isSuffix
    exact ⟨t, by simp⟩
  inside hne := by
    rw [placeBehind_concat] at hne
    rcases hinside hne with rfl | hinside
    · simp
    · rcases h.inside hinside with hmem | hmem <;> simp [hmem]
  outside hplace d hd := by
    rw [placeBehind_concat] at hplace
    obtain rfl : c = d := by simpa using hd
    exact houtside hplace
  head d hd := by
    cases current with
    | nil =>
        obtain rfl : c = d := by simpa using hd
        refine hhead ?_
        by_contra hne
        simpa using h.inside hne
    | cons b r => exact h.head d (by simpa using hd)
  bound := by
    rw [placeBehind_concat]
    exact hbound

/-- A character that ends the token leaves the pass outside of all brackets. -/
theorem Gathers.close (h : Gathers u ended current) (more : List Text)
    (hput : ∀ p, flushToken (current ++ ((placeBehind u).put c p).1) ((placeBehind u).put c p).2
      = more ++ flushToken p.1 p.2)
    (hnext : (placeBehind u).next c = {}) : Gathers (u ++ [c]) (ended ++ more) [] where
  typeTokens_append w := by rw [h.typeTokens_concat, hput, List.append_assoc, List.nil_append]
  isSuffix := List.nil_suffix
  inside hne := absurd (placeBehind_concat u c ▸ hnext) hne
  outside := by simp
  head := by simp
  bound := by simp [placeBehind_concat, hnext]

/-- An array bound starts a token of its own. -/
theorem Gathers.openBound (h : Gathers u ended current) (hangles : (placeBehind u).angles = 0) :
    Gathers (u ++ ['[']) (ended ++ flushToken current []) ['['] where
  typeTokens_append w := by
    have hput : ∀ p, (placeBehind u).put '[' p = ([], ('[' :: p.1) :: p.2) := fun p => by
      simp [TokenState.put, hangles]
    rw [h.typeTokens_concat, hput, List.append_nil, flushToken_eq_append, List.append_assoc]
    rfl
  isSuffix := List.suffix_append u ['[']
  inside _ := Or.inr List.mem_cons_self
  outside _ c hc := by
    obtain rfl : '[' = c := by simpa using hc
    decide
  head c hc := by
    obtain rfl : '[' = c := by simpa using hc
    decide
  bound _ := by simp [placeBehind_concat, TokenState.next, hangles]

/-- One more character in an array bound. -/
theorem Gathers.concat_bound (h : Gathers u ended current) (hplace : placeBehind u = ⟨0, true⟩)
    (hc : c ≠ '[') : ∃ ended' current', Gathers (u ++ [c]) ended' current' := by
  by_cases hclose : c = ']'
  · subst hclose
    refine ⟨_, _, h.close [current ++ [']']] (fun p => ?_) (by rw [hplace]; rfl)⟩
    have hne : current ++ [']'] ≠ [] := by simp
    rw [hplace]
    exact flushToken_of_ne_nil hne _
  · have hnext : (placeBehind u).next c = ⟨0, true⟩ := by
      simp [hplace, TokenState.next, hc, hclose]
    refine ⟨_, _, h.prolong (fun p => ?_) (fun _ => Or.inr ?_) ?_ ?_ ?_⟩
    · simp [hplace, TokenState.put, hc, hclose]
    · simp [hplace]
    · simp [hnext]
    · simp [hplace]
    · simp [hnext]

/-- One more template bracket. -/
theorem Gathers.concat_angle (h : Gathers u ended current)
    (hplace : (placeBehind u).inArray = false) (hangle : c = '<' ∨ c = '>') :
    Gathers (u ++ [c]) ended (current ++ [c]) := by
  have hc : isBlank c = false ∧ ¬ (c = '*' ∨ c = '&') ∧ c ≠ '[' := by
    rcases hangle with rfl | rfl <;> decide
  refine h.prolong (fun p => ?_) (fun hne => ?_) (fun _ => ⟨hc.1, hc.2.1⟩) (fun _ => hc.2.1) ?_
  · rcases hangle with rfl | rfl <;> simp [hplace, TokenState.put]
  · rcases hangle with rfl | rfl
    · exact Or.inl rfl
    · refine Or.inr fun hout => hne ?_
      rw [hout]
      rfl
  · rcases hangle with rfl | rfl <;> simp [hplace, TokenState.next]

/-- One more character outside of all brackets: a blank ends the token, a marker ends it and is one
itself, and any other character goes to it. -/
theorem Gathers.concat_outside (h : Gathers u ended current) (hplace : placeBehind u = {})
    (hbound : c ≠ '[') (hnext : (placeBehind u).next c = {}) :
    ∃ ended' current', Gathers (u ++ [c]) ended' current' := by
  by_cases hblank : isBlank c = true
  · refine ⟨_, _, h.close (flushToken current []) (fun p => ?_) hnext⟩
    rw [hplace, TokenState.put_blank p hblank, List.append_nil, flushToken_eq_append]
  by_cases hmarker : c = '*' ∨ c = '&'
  · refine ⟨_, _, h.close (flushToken current [] ++ [[c]]) (fun p => ?_) hnext⟩
    rw [hplace, TokenState.put_marker p hmarker, List.append_nil, flushToken_eq_append,
      List.append_assoc]
    rfl
  · rw [Bool.not_eq_true] at hblank
    refine ⟨_, _, h.prolong (fun p => ?_) ?_ (fun _ => ⟨hblank, hmarker⟩) (fun _ => hmarker) ?_⟩
    · rw [hplace, TokenState.put_outside p hbound hblank hmarker]
    · exact fun hne => absurd hnext hne
    · simp [hnext]

/-- **One more character**: the pass has gathered something behind it too. Inside of template
brackets, everything but these brackets goes to the token. -/
theorem Gathers.concat (h : Gathers u ended current) (c : Char) :
    ∃ ended' current', Gathers (u ++ [c]) ended' current' := by
  cases hplace : placeBehind u with
  | mk d inArray =>
  by_cases hopen : c = '[' ∧ d = 0
  · obtain ⟨rfl, rfl⟩ := hopen
    exact ⟨_, _, h.openBound (by rw [hplace])⟩
  cases inArray with
  | true =>
      obtain rfl : d = 0 := by simpa [hplace] using h.bound
      exact h.concat_bound hplace fun hc => hopen ⟨hc, rfl⟩
  | false =>
      by_cases hangle : c = '<' ∨ c = '>'
      · exact ⟨_, _, h.concat_angle (by rw [hplace]) hangle⟩
      rw [not_or] at hangle
      have hnext : (placeBehind u).next c = ⟨d, false⟩ := by
        simp only [hplace, TokenState.next]
        simp_all
      cases d with
      | zero => exact h.concat_outside hplace (fun hc => hopen ⟨hc, rfl⟩) hnext
      | succ d =>
          refine ⟨_, _, h.prolong (fun p => ?_) (fun _ => Or.inr ?_) ?_ ?_ ?_⟩
          · rw [hplace, TokenState.put_inside]
          · simp [hplace]
          · simp [hnext]
          · simp [hplace]
          · simp [hnext]

end

/-- **Behind every text the pass has gathered something.** -/
theorem exists_gathers (u : Text) : ∃ ended current, Gathers u ended current := by
  induction u using List.reverseRecOn with
  | nil =>
      refine ⟨[], [], fun w => rfl, List.nil_suffix, fun h => absurd rfl h, ?_, ?_, ?_⟩ <;>
        simp [placeBehind, TokenState.after]
  | append_singleton u c ih =>
      obtain ⟨ended, current, h⟩ := ih
      exact h.concat c

/-! ### Blanks behind the text -/

/-- Inside of brackets blanks go to the token. -/
theorem typeTokensFrom_blanks_inside {s : TokenState} (hs : s ≠ {}) {gap : Text}
    (hgap : gap.isBlank = true) (v : Text) :
    typeTokensFrom s (gap ++ v) = (gap ++ (typeTokensFrom s v).1, (typeTokensFrom s v).2) := by
  induction gap with
  | nil => rfl
  | cons c r ih =>
      obtain ⟨hc, hr⟩ : isBlank c = true ∧ Text.isBlank r = true := by
        simpa [Text.isBlank] using hgap
      have hne : c ≠ '[' ∧ c ≠ ']' ∧ c ≠ '<' ∧ c ≠ '>' := by
        refine ⟨?_, ?_, ?_, ?_⟩ <;> (rintro rfl; revert hc; decide)
      have hnext : s.next c = s := by simp [TokenState.next, hne]
      rw [List.cons_append, typeTokensFrom_cons, hnext, ih hr]
      obtain ⟨d, inArray⟩ := s
      cases inArray with
      | true => simp [TokenState.put, hne]
      | false =>
          cases d with
          | zero => exact absurd rfl hs
          | succ d => rw [TokenState.put_inside]; rfl

/-- Outside of them they end it. -/
theorem typeTokensFrom_blanks_outside {gap : Text} (hgap : gap.isBlank = true) (hne : gap ≠ [])
    (v : Text) : typeTokensFrom {} (gap ++ v) = ([], typeTokens v) := by
  induction gap with
  | nil => exact absurd rfl hne
  | cons c r ih =>
      obtain ⟨hc, hr⟩ : isBlank c = true ∧ Text.isBlank r = true := by
        simpa [Text.isBlank] using hgap
      have hbracket : c ≠ '[' ∧ c ≠ '<' ∧ c ≠ '>' := by
        refine ⟨?_, ?_, ?_⟩ <;> (rintro rfl; revert hc; decide)
      rw [List.cons_append, typeTokensFrom_cons, TokenState.put_blank _ hc,
        TokenState.next_of_ne hbracket.1 hbracket.2.1 hbracket.2.2]
      cases r with
      | nil => rfl
      | cons b r => rw [ih hr (by simp)]; rfl

/-- A token that a text goes on with starts with a character that is neither blank nor a marker. -/
theorem head_typeTokensFrom {v : Text} {c : Char} (h : (typeTokensFrom {} v).1.head? = some c) :
    isBlank c = false ∧ ¬ (c = '*' ∨ c = '&') := by
  cases v with
  | nil => cases h
  | cons d r =>
      rw [typeTokensFrom_cons] at h
      by_cases hopen : d = '['
      · subst hopen
        cases h
      by_cases hblank : isBlank d = true
      · rw [TokenState.put_blank _ hblank] at h
        cases h
      by_cases hmarker : d = '*' ∨ d = '&'
      · rw [TokenState.put_marker _ hmarker] at h
        cases h
      · rw [Bool.not_eq_true] at hblank
        rw [TokenState.put_outside _ hopen hblank hmarker] at h
        obtain rfl : d = c := by simpa using h
        exact ⟨hblank, hmarker⟩

/-- Inside of brackets every character goes to the token, unless an array bound starts with it. -/
theorem exists_cons_typeTokensFrom {s : TokenState} (hs : s ≠ {}) {c : Char}
    (hc : ¬ (c = '[' ∧ s.angles = 0)) (r : Text) :
    ∃ token, (typeTokensFrom s (c :: r)).1 = c :: token := by
  rw [typeTokensFrom_cons]
  generalize typeTokensFrom (s.next c) r = p
  obtain ⟨d, inArray⟩ := s
  cases inArray with
  | true =>
      by_cases hclose : c = ']'
      · exact ⟨[], by simp [TokenState.put, hclose]⟩
      · exact ⟨p.1, by rw [TokenState.put, if_neg (by simpa using hc)]; simp [hclose]⟩
  | false =>
      cases d with
      | zero => exact absurd rfl hs
      | succ d => exact ⟨p.1, by rw [TokenState.put_inside]⟩

end Sharpen
