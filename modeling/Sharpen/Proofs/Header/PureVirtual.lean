import Mathlib.Data.List.Basic
import Mathlib.Tactic.Tauto
import Sharpen.Proofs.Header.Growth
import Sharpen.Proofs.Text.Results
import Sharpen.Proofs.TypeKey.Spelling

/-!
# Interfaces and Pure Virtual Methods

The kind of a class is decided when it is opened, by a search of its whole body for the ending of a
pure virtual declaration. Whether a method is pure is decided later, from what stands behind its
parameters. This module says what each of the two looks at, and so when they agree.

The search is described without its reader: it finds an ending if there is one somewhere in the
body, that is a closing parenthesis, perhaps a word, and `= 0` with a semicolon. The mark of a
method comes from what stands behind the parenthesis of its own parameters. So the two agree for a
class unless an ending belongs to no method, or a method is pure without such an ending.

## Main definitions

* `Reader.ReadsBy` — a reader that goes by the text in front of it alone.
* `IsPureEnding` — the ending that is searched for; `occursIn_pureVirtual` shows that it is found
  wherever it stands.
* `TypeDecl.IsReadFrom` — the head that a type of a header was opened with.
* `IsQualifier` — a word with blanks behind it, or nothing.
* `Page.bodyEnd` — where the body of the type with the given head ends.

## Main results

* `isPure_of_isPureEnding` — a method without body whose declaration ends like that is pure.
* `interface_iff_isPure_iff` — when a class is an interface just if it has a pure method.
* `Reader.ReadsBy.occursIn` — a reader that goes by the text alone is found wherever it can read.
* `readsBy_pureVirtual` — the search finds exactly the pure endings.
* `isPure_methodDecl` — what the mark of a pure method comes from: the text behind the parameters,
  up to the semicolon, if no body follows.
* `exists_isReadFrom` — every type of a header was read from a head.
* `TypeDecl.IsReadFrom.kind_eq_interface` — what makes a class an interface: a pure ending in its
  body, be it the end of a method or not.
* `TypeDecl.IsReadFrom.exists_isPure` — what makes a method of a class pure: its pure ending, or
  something else.
-/

namespace Sharpen

/-! ### Readers as relations -/

namespace Reader

/-- A reader that can read from a text up to another one just if the relation holds between them,
wherever it stands. -/
def ReadsBy {α : Type} (r : Reader α) (R : Text → Text → Prop) : Prop :=
  ∀ (c : Cursor) (rest : Text), (∃ a c', r.run c = some (a, c') ∧ c'.rest = rest) ↔ R c.rest rest

/-- One reader after another one. -/
theorem ReadsBy.bind {α β : Type} {r : Reader α} {k : Reader β} {R S : Text → Text → Prop}
    (hr : r.ReadsBy R) (hk : k.ReadsBy S) :
    (do let _ ← r; k : Reader β).ReadsBy fun t u => ∃ mid, R t mid ∧ S mid u := by
  intro c rest
  constructor
  · rintro ⟨b, c'', hrun, hrest⟩
    simp only [StateT.run_bind, Option.bind_eq_bind, Option.bind_eq_some_iff] at hrun
    obtain ⟨⟨a, c'⟩, hfirst, hsecond⟩ := hrun
    exact ⟨c'.rest, (hr c _).mp ⟨a, c', hfirst, rfl⟩, (hk c' rest).mp ⟨b, c'', hsecond, hrest⟩⟩
  · rintro ⟨mid, hfirst, hsecond⟩
    obtain ⟨a, c', hrun, rfl⟩ := (hr c mid).mpr hfirst
    obtain ⟨b, c'', hrun', hrest⟩ := (hk c' rest).mpr hsecond
    refine ⟨b, c'', ?_, hrest⟩
    simp only [StateT.run_bind, Option.bind_eq_bind, hrun, Option.bind_some]
    exact hrun'

/-- Reading one given character. -/
theorem readsBy_char (x : Char) : (char x).ReadsBy fun t u => t = x :: u := by
  intro c rest
  cases hc : c.rest with
  | nil =>
      have hrun : (char x).run c = none := by
        simp only [char, StateT.run_bind]
        simp [StateT.run, satisfy, hc]
      simp [hrun]
  | cons y r =>
      have hrun : (char x).run c
          = if y == x then some ((), ⟨c.position + 1, some y, r⟩) else none := by
        simp only [char, StateT.run_bind]
        by_cases hy : (y == x) = true <;> simp [StateT.run, satisfy, hc, hy]
        rfl
      rw [hrun]
      by_cases hy : y = x <;> simp [hy]

/-- Reading the longest run of blanks. -/
theorem readsBy_blanks : blanks.ReadsBy fun t u => t.dropWhile isBlank = u := by
  intro c rest
  have hdrop : (c.skip (c.rest.takeWhile isBlank).length).rest = c.rest.dropWhile isBlank := by
    rw [Cursor.rest_skip]
    calc c.rest.drop (c.rest.takeWhile isBlank).length
        = (c.rest.takeWhile isBlank ++ c.rest.dropWhile isBlank).drop
            (c.rest.takeWhile isBlank).length := by rw [List.takeWhile_append_dropWhile]
      _ = c.rest.dropWhile isBlank := List.drop_left
  have hrun : blanks.run c = some ((), c.skip (c.rest.takeWhile isBlank).length) := rfl
  rw [hrun]
  simp [hdrop]

/-- Reading a given text. -/
theorem readsBy_text (w : Text) : (text w).ReadsBy fun t u => t = w ++ u := by
  intro c rest
  have hrun : (text w).run c
      = if w.isPrefixOf c.rest then some ((), c.skip w.length) else none := rfl
  rw [hrun]
  constructor
  · rintro ⟨a, c', h, rfl⟩
    split at h
    · rename_i hprefix
      obtain ⟨r, hr⟩ := List.isPrefixOf_iff_prefix.mp hprefix
      obtain ⟨-, rfl⟩ := Prod.mk.inj (Option.some.inj h)
      rw [Cursor.rest_skip, ← hr, List.drop_left]
    · cases h
  · intro h
    refine ⟨(), c.skip w.length, ?_, ?_⟩
    · rw [if_pos (List.isPrefixOf_iff_prefix.mpr ⟨rest, h.symm⟩)]
    · rw [Cursor.rest_skip, h, List.drop_left]

/-- Reading something if it is there. -/
theorem ReadsBy.option {α : Type} {r : Reader α} {R : Text → Text → Prop} (hr : r.ReadsBy R) :
    (Reader.option r).ReadsBy fun t u => R t u ∨ (∀ v, ¬ R t v) ∧ t = u := by
  intro c rest
  cases hrun : r.run c with
  | none =>
      have hoption : (Reader.option r).run c = some (none, c) := by simp [Reader.option, hrun]
      have hnone : ∀ v, ¬ R c.rest v := by
        intro v hv
        obtain ⟨a, c', h, -⟩ := (hr c v).mpr hv
        rw [hrun] at h
        cases h
      rw [hoption]
      simp [hnone]
  | some p =>
      obtain ⟨a, c'⟩ := p
      have hoption : (Reader.option r).run c = some (some a, c') := by simp [Reader.option, hrun]
      have hsome : R c.rest c'.rest := (hr c _).mp ⟨a, c', hrun, rfl⟩
      have honly : ∀ v, R c.rest v ↔ c'.rest = v := by
        intro v
        rw [← hr c v, hrun]
        simp
      rw [hoption]
      simp [honly]

/-- **A reader that goes by the text alone is found wherever it can read.** -/
theorem ReadsBy.occursIn {α : Type} {r : Reader α} {R : Text → Text → Prop} (hr : r.ReadsBy R)
    (hnil : ∀ u, ¬ R [] u) (t : Text) : r.occursIn t = true ↔ ∃ v u, v <:+ t ∧ R v u := by
  have hfind : ∀ (position : Nat) (before : Option Char),
      findFrom r 0 position before t ≠ [] ↔ ∃ v u, v <:+ t ∧ R v u := by
    induction t with
    | nil => simp [findFrom, hnil]
    | cons x t ih =>
        intro position before
        rw [findFrom]
        cases hrun : r.run ⟨position, before, x :: t⟩ with
        | none =>
            have hnone : ∀ u, ¬ R (x :: t) u := by
              intro u hu
              obtain ⟨a, c', h, -⟩ := (hr ⟨position, before, x :: t⟩ u).mpr hu
              rw [hrun] at h
              cases h
            rw [ih]
            constructor
            · rintro ⟨v, u, hv, huv⟩
              exact ⟨v, u, hv.trans (List.suffix_cons x t), huv⟩
            · rintro ⟨v, u, hv, huv⟩
              rcases List.suffix_cons_iff.mp hv with rfl | hv
              · exact absurd huv (hnone u)
              · exact ⟨v, u, hv, huv⟩
        | some p =>
            have hsome : R (x :: t) p.2.rest :=
              (hr ⟨position, before, x :: t⟩ _).mp ⟨p.1, p.2, hrun, rfl⟩
            simp only [ne_eq, reduceCtorEq, not_false_eq_true, true_iff]
            exact ⟨_, _, List.suffix_refl _, hsome⟩
  rw [Reader.occursIn, Reader.findAll, Bool.not_eq_true', List.isEmpty_eq_false_iff]
  exact hfind 0 none

end Reader

/-! ### Pure endings -/

/-- A word with blanks behind it, or nothing. -/
def IsQualifier (w q : Text) : Prop :=
  q = [] ∨ ∃ b : Text, b.isBlank = true ∧ q = w ++ b

/-- **The ending of a pure virtual declaration**: the parenthesis that closes its parameters,
perhaps `const`, perhaps `override`, then `= 0` and the semicolon, with blanks between them. -/
def IsPureEnding (t : Text) : Prop :=
  ∃ b₀ q₁ q₂ b₁ b₂ : Text, b₀.isBlank = true ∧ IsQualifier "const" q₁ ∧
    IsQualifier "override" q₂ ∧ b₁.isBlank = true ∧ b₂.isBlank = true ∧
    t = ')' :: (b₀ ++ (q₁ ++ (q₂ ++ '=' :: (b₁ ++ '0' :: (b₂ ++ [';'])))))

/-- What is dropped before a text are blanks. -/
theorem exists_blanks_of_dropWhile {t u : Text} (h : t.dropWhile isBlank = u) :
    ∃ b : Text, b.isBlank = true ∧ t = b ++ u :=
  ⟨t.takeWhile isBlank, List.all_takeWhile, h ▸ List.takeWhile_append_dropWhile.symm⟩

/-- Blanks in front of something else are dropped, and nothing more. -/
theorem dropWhile_blanks_append {b : Text} (hb : b.isBlank = true) {c : Char} {u : Text}
    (hc : isBlank c = false) : (b ++ c :: u).dropWhile isBlank = c :: u := by
  rw [List.dropWhile_append_of_pos (List.all_eq_true.mp hb)]
  exact List.dropWhile_cons_of_neg (by simp [hc])

/-- How a word that may be missing is read, with the blanks behind it. -/
def ReadsQualifier (w t u : Text) : Prop :=
  (∃ mid, t = w ++ mid ∧ mid.dropWhile isBlank = u) ∨
    (∀ v, ¬ ∃ mid, t = w ++ mid ∧ mid.dropWhile isBlank = v) ∧ t = u

/-- What is read is the word or nothing. -/
theorem ReadsQualifier.exists_qualifier {w t u : Text} (h : ReadsQualifier w t u) :
    ∃ q, IsQualifier w q ∧ t = q ++ u := by
  rcases h with ⟨mid, rfl, hmid⟩ | ⟨-, rfl⟩
  · obtain ⟨b, hb, rfl⟩ := exists_blanks_of_dropWhile hmid
    exact ⟨w ++ b, Or.inr ⟨b, hb, rfl⟩, (List.append_assoc _ _ _).symm⟩
  · exact ⟨[], Or.inl rfl, rfl⟩

/-- The word is read, or nothing, in front of something that is neither the word nor a blank. -/
theorem IsQualifier.reads {w q : Text} (hq : IsQualifier w q) {c : Char} {u : Text}
    (hc : isBlank c = false) (hw : ¬ w <+: c :: u) : ReadsQualifier w (q ++ c :: u) (c :: u) := by
  rcases hq with rfl | ⟨b, hb, rfl⟩
  · refine Or.inr ⟨?_, rfl⟩
    rintro v ⟨mid, hmid, -⟩
    exact hw ⟨mid, hmid.symm⟩
  · exact Or.inl ⟨b ++ c :: u, List.append_assoc _ _ _, dropWhile_blanks_append hb hc⟩

/-- A word that may be missing, with something behind it, starts with one or the other. -/
theorem IsQualifier.exists_cons {x : Char} {w q : Text} (hq : IsQualifier (x :: w) q) (c : Char)
    (u : Text) : ∃ c' u', q ++ c :: u = c' :: u' ∧ (c' = c ∨ c' = x) := by
  rcases hq with rfl | ⟨b, -, rfl⟩
  · exact ⟨c, u, rfl, Or.inl rfl⟩
  · exact ⟨x, _, rfl, Or.inr rfl⟩

/-- **The search finds exactly the pure endings.** Every part of an ending is followed by something
that cannot be a part of it. -/
theorem readsBy_pureVirtual :
    pureVirtual.ReadsBy fun t u => ∃ w, IsPureEnding w ∧ t = w ++ u := by
  have hqualifier : ∀ w : Text, Reader.ReadsBy (Reader.option (do Reader.text w; Reader.blanks))
      (ReadsQualifier w) := fun w => ((Reader.readsBy_text w).bind Reader.readsBy_blanks).option
  have hreads := (Reader.readsBy_char ')').bind <| Reader.readsBy_blanks.bind <|
    (hqualifier "const").bind <| (hqualifier "override").bind <| (Reader.readsBy_char '=').bind <|
    Reader.readsBy_blanks.bind <| (Reader.readsBy_char '0').bind <| Reader.readsBy_blanks.bind <|
    Reader.readsBy_char ';'
  intro c rest
  refine (hreads c rest).trans ?_
  generalize c.rest = t
  constructor
  · rintro ⟨t₁, rfl, t₂, h₀, t₃, h₁, t₄, h₂, t₅, rfl, t₆, h₃, t₇, rfl, t₈, h₄, rfl⟩
    obtain ⟨b₀, hb₀, rfl⟩ := exists_blanks_of_dropWhile h₀
    obtain ⟨q₁, hq₁, rfl⟩ := h₁.exists_qualifier
    obtain ⟨q₂, hq₂, rfl⟩ := h₂.exists_qualifier
    obtain ⟨b₁, hb₁, rfl⟩ := exists_blanks_of_dropWhile h₃
    obtain ⟨b₂, hb₂, rfl⟩ := exists_blanks_of_dropWhile h₄
    exact ⟨_, ⟨b₀, q₁, q₂, b₁, b₂, hb₀, hq₁, hq₂, hb₁, hb₂, rfl⟩, by simp⟩
  · rintro ⟨_, ⟨b₀, q₁, q₂, b₁, b₂, hb₀, hq₁, hq₂, hb₁, hb₂, rfl⟩, rfl⟩
    obtain ⟨c₂, u₂, hcons₂, hc₂⟩ :=
      hq₂.exists_cons (x := 'o') '=' (b₁ ++ '0' :: (b₂ ++ ';' :: rest))
    obtain ⟨c₁, u₁, hcons₁, hc₁⟩ := hq₁.exists_cons (x := 'c') c₂ u₂
    have hblank₁ : isBlank c₁ = false := by
      rcases hc₁ with rfl | rfl
      · rcases hc₂ with rfl | rfl <;> decide
      · decide
    have hblank₂ : isBlank c₂ = false := by rcases hc₂ with rfl | rfl <;> decide
    have hconst : ¬ ("const" : Text) <+: c₂ :: u₂ := by rcases hc₂ with rfl | rfl <;> simp
    refine ⟨b₀ ++ (q₁ ++ (q₂ ++ '=' :: (b₁ ++ '0' :: (b₂ ++ ';' :: rest)))), by simp,
      q₁ ++ c₂ :: u₂, ?_, c₂ :: u₂, hq₁.reads hblank₂ hconst, _, hcons₂ ▸ hq₂.reads (by decide) ?_,
      _, rfl, _, dropWhile_blanks_append hb₁ (by decide), _, rfl, _,
      dropWhile_blanks_append hb₂ (by decide), rfl⟩
    · rw [hcons₂, hcons₁]
      exact dropWhile_blanks_append hb₀ hblank₁
    · simp

/-- What stands in a text between two positions is read from the first one on. -/
theorem Text.exists_slice_iff {P : Text → Prop} (hnil : ¬ P []) (t : Text) :
    (∃ i j, P (t.slice i j)) ↔ ∃ v u, v <:+ t ∧ ∃ w, P w ∧ v = w ++ u := by
  constructor
  · rintro ⟨i, j, hP⟩
    have hlt : i < (t.take j).length := by
      by_contra hle
      rw [Text.slice, List.drop_eq_nil_iff.mpr (by omega)] at hP
      exact hnil hP
    refine ⟨t.drop i, t.drop j, List.drop_suffix i t, t.slice i j, hP, ?_⟩
    conv_lhs => rw [← List.take_append_drop j t]
    rw [List.drop_append_of_le_length (by omega), Text.slice]
  · rintro ⟨_, u, ⟨p, rfl⟩, w, hP, rfl⟩
    refine ⟨p.length, p.length + w.length, ?_⟩
    rwa [Text.slice, ← List.append_assoc, ← List.length_append, List.take_left, List.drop_left]

/-- What stands in a part of a text stands in the text, between the ends of the part. -/
theorem exists_slice_slice_iff {P : Text → Prop} (hnil : ¬ P []) {t : Text} {a b : Nat} :
    (∃ i j, P ((t.slice (a + 1) b).slice i j)) ↔ ∃ i j, a < i ∧ j ≤ b ∧ P (t.slice i j) := by
  have hslice : ∀ i j, (t.slice (a + 1) b).slice i j
      = t.slice (a + 1 + i) (min (a + 1 + j) b) := by
    intro i j
    rw [Text.slice, Text.slice, Text.slice, List.take_drop, List.drop_drop, List.take_take]
  constructor
  · rintro ⟨i, j, hP⟩
    exact ⟨a + 1 + i, min (a + 1 + j) b, by omega, Nat.min_le_right _ _, hslice i j ▸ hP⟩
  · rintro ⟨i, j, hi, hj, hP⟩
    have hlt : i < j := by
      by_contra hle
      rw [Text.slice_eq_nil (by omega)] at hP
      exact hnil hP
    refine ⟨i - (a + 1), j - (a + 1), ?_⟩
    rwa [hslice, Nat.add_sub_cancel' hi, Nat.add_sub_cancel' (by omega), Nat.min_eq_left hj]

/-- No pure ending is empty. -/
theorem not_isPureEnding_nil : ¬ IsPureEnding [] := by
  rintro ⟨b₀, q₁, q₂, b₁, b₂, -, -, -, -, -, h⟩
  cases h

/-- **A pure ending is found wherever it stands.** -/
theorem occursIn_pureVirtual (t : Text) :
    pureVirtual.occursIn t = true ↔ ∃ i j, IsPureEnding (t.slice i j) := by
  rw [readsBy_pureVirtual.occursIn, Text.exists_slice_iff not_isPureEnding_nil]
  rintro u ⟨w, hw, h⟩
  obtain ⟨rfl, -⟩ := List.append_eq_nil_iff.mp h.symm
  exact not_isPureEnding_nil hw

/-! ### Pure methods -/

/-- A text that ends with another character is not shortened. -/
theorem Text.dropEndWhile_concat {p : Char → Bool} {c : Char} (hc : p c = false) (t : Text) :
    Text.dropEndWhile p (t ++ [c]) = t ++ [c] := by
  simp [Text.dropEndWhile, hc]

/-- An end that is dropped does not matter. -/
theorem Text.dropEndWhile_append_of_all {p : Char → Bool} {b : Text} (hb : b.all p = true)
    (t : Text) : Text.dropEndWhile p (t ++ b) = Text.dropEndWhile p t := by
  rw [Text.dropEndWhile, List.reverse_append, List.dropWhile_append_of_pos]
  · rfl
  · exact fun c hc => List.all_eq_true.mp hb c (List.mem_reverse.mp hc)

/-- A text that ends with `= 0`, perhaps with blanks between and behind them, ends with this
value. -/
theorem endsWithValue_zero (z : Text) {b₁ b₂ : Text} (hb₁ : b₁.isBlank = true)
    (hb₂ : b₂.isBlank = true) : endsWithValue "0" (z ++ '=' :: (b₁ ++ '0' :: b₂)) = true := by
  obtain ⟨z', hz'⟩ := Text.exists_trimStart_append (c := '=') (by decide) z (b₁ ++ '0' :: b₂)
  have htrim : Text.trim (z ++ '=' :: (b₁ ++ '0' :: b₂)) = (z' ++ '=' :: b₁) ++ ['0'] := by
    rw [Text.trim, hz',
      show z' ++ '=' :: (b₁ ++ '0' :: b₂) = (z' ++ '=' :: b₁ ++ ['0']) ++ b₂ by simp,
      Text.trimEnd, Text.dropEndWhile_append_of_all hb₂, Text.dropEndWhile_concat (by decide)]
  have hequals : Text.trimEnd (z' ++ '=' :: b₁) = z' ++ ['='] := by
    rw [show z' ++ '=' :: b₁ = (z' ++ ['=']) ++ b₁ by simp, Text.trimEnd,
      Text.dropEndWhile_append_of_all hb₁, Text.dropEndWhile_concat (by decide)]
  have htake : ((z' ++ '=' :: b₁) ++ ['0']).take
      (((z' ++ '=' :: b₁) ++ ['0']).length - ("0" : Text).length) = z' ++ '=' :: b₁ :=
    List.take_left' (by simp)
  simp only [endsWithValue, htrim, htake, hequals, Bool.and_eq_true]
  exact ⟨List.isSuffixOf_iff_suffix.mpr (List.suffix_append _ _),
    List.isSuffixOf_iff_suffix.mpr (List.suffix_append _ _)⟩

/-- The end of a declaration without its semicolon. -/
theorem dropEndWhile_semicolon (z : Text) {b : Text} (hb : b.isBlank = true) :
    Text.dropEndWhile (· == ';') (Text.trimEnd (z ++ '0' :: (b ++ [';']))) = z ++ '0' :: b := by
  have hlast : ∃ t c, z ++ '0' :: b = t ++ [c] ∧ (c == ';') = false := by
    rcases List.eq_nil_or_concat b with rfl | ⟨b', c, rfl⟩
    · exact ⟨z, '0', rfl, rfl⟩
    · refine ⟨z ++ '0' :: b', c, by simp, ?_⟩
      have hc := List.all_eq_true.mp hb c (by simp)
      rw [beq_eq_false_iff_ne]
      rintro rfl
      exact absurd hc (by decide)
  obtain ⟨t, c, ht, hc⟩ := hlast
  rw [show z ++ '0' :: (b ++ [';']) = (z ++ '0' :: b) ++ [';'] by simp, Text.trimEnd,
    Text.dropEndWhile_concat (by decide), Text.dropEndWhile_append_of_all (by decide), ht,
    Text.dropEndWhile_concat (p := (· == ';')) hc]

/-- Behind any parenthesis of a declaration with a pure ending, the declaration ends with `= 0` and
a semicolon. For the first character of the ending is its only parenthesis. -/
theorem IsPureEnding.exists_drop_eq {before w : Text} (hw : IsPureEnding w) {closing : Nat}
    (hclosing : (before ++ w)[closing]? = some ')') :
    ∃ z b₁ b₂ : Text, b₁.isBlank = true ∧ b₂.isBlank = true ∧
      (before ++ w).drop (closing + 1) = z ++ '=' :: (b₁ ++ '0' :: (b₂ ++ [';'])) := by
  obtain ⟨b₀, q₁, q₂, b₁, b₂, hb₀, hq₁, hq₂, hb₁, hb₂, rfl⟩ := hw
  have hle : closing ≤ before.length := by
    by_contra hlt
    obtain ⟨k, rfl⟩ : ∃ k, closing = before.length + (k + 1) :=
      ⟨closing - before.length - 1, by omega⟩
    rw [List.getElem?_append_right (by omega), Nat.add_sub_cancel_left, List.getElem?_cons_succ]
      at hclosing
    have hmem := List.mem_of_getElem? hclosing
    have hblank : ∀ {b : Text}, b.isBlank = true → ')' ∉ b := fun hb hc =>
      absurd (List.all_eq_true.mp hb _ hc) (by decide)
    have hqualifier : ∀ {w q : Text}, ')' ∉ w → IsQualifier w q → ')' ∉ q := by
      rintro w q hw (rfl | ⟨b, hb, rfl⟩) hc
      · cases hc
      · exact (List.mem_append.mp hc).elim hw (hblank hb)
    have hconst := hqualifier (by decide) hq₁
    have hoverride := hqualifier (by decide) hq₂
    simp [hblank hb₀, hblank hb₁, hblank hb₂, hconst, hoverride] at hmem
  refine ⟨(before ++ [')']).drop (closing + 1) ++ (b₀ ++ (q₁ ++ q₂)), b₁, b₂, hb₁, hb₂, ?_⟩
  rw [show before ++ ')' :: (b₀ ++ (q₁ ++ (q₂ ++ '=' :: (b₁ ++ '0' :: (b₂ ++ [';'])))))
    = (before ++ [')']) ++ ((b₀ ++ (q₁ ++ q₂)) ++ '=' :: (b₁ ++ '0' :: (b₂ ++ [';']))) by simp,
    List.drop_append_of_le_length (by simpa using hle)]
  simp

/-- What stands behind the parameters of a declaration without body. -/
theorem head_methodTail {masked text : Text} (h : (methodTail masked text).brace = none) :
    (methodTail masked text).head = Text.dropEndWhile (· == ';') (Text.trimEnd masked) := by
  rw [methodTail] at h ⊢
  split
  · rfl
  · rename_i brace hbrace
    simp only [hbrace] at h
    split at h <;> cases h

/-- **What the mark of a pure method comes from**: the text behind the parameters, up to the
semicolon, if no body follows. -/
theorem isPure_methodDecl {stem owner masked text : Text} {visibility : Visibility} {position : Nat}
    {m : Method} (h : methodDecl stem owner visibility position masked text = .method m)
    (hbody : m.hasInlineBody = false) :
    ∃ closing, masked[closing]? = some ')' ∧ m.isPure = endsWithValue "0"
      (Text.dropEndWhile (· == ';') (Text.trimEnd (masked.drop (closing + 1)))) := by
  obtain ⟨closing, name, before, hclosing, -, ⟨hbrace, rfl⟩ | rfl | ⟨body, indent, rfl⟩⟩ :=
    exists_of_methodDecl h
  · refine ⟨closing, (matchingAt?_eq_some hclosing).2, ?_⟩
    rw [← head_methodTail hbrace]
    rfl
  · cases hbody
  · cases hbody

/-- **A method without body is pure if its declaration has a pure ending.** -/
theorem isPure_of_isPureEnding {stem owner masked text : Text} {visibility : Visibility}
    {position : Nat} {m : Method}
    (h : methodDecl stem owner visibility position masked text = .method m)
    (hbody : m.hasInlineBody = false) {i : Nat} (hending : IsPureEnding (masked.drop i)) :
    m.isPure = true := by
  obtain ⟨closing, hclosing, hpure⟩ := isPure_methodDecl h hbody
  rw [← List.take_append_drop i masked] at hclosing
  obtain ⟨z, b₁, b₂, hb₁, hb₂, hdrop⟩ := hending.exists_drop_eq hclosing
  rw [List.take_append_drop] at hdrop
  rw [hpure, hdrop, show z ++ '=' :: (b₁ ++ '0' :: (b₂ ++ [';']))
    = (z ++ '=' :: b₁) ++ '0' :: (b₂ ++ [';']) by simp, dropEndWhile_semicolon _ hb₂]
  simpa using endsWithValue_zero z hb₁ hb₂

/-! ### Types and their heads -/

/-- Where the body of the type with the given head ends. -/
def Page.bodyEnd (page : Page) (head : TypeHead) : Nat :=
  (matchingAt? '\x7b' '\x7d' page.masked head.brace).getD page.text.length

/-- A method as its declaration in a body that ends at `limit` says: what makes it pure, and whether
it has a body. -/
def Method.IsReadAt (page : Page) (limit : Nat) (m : Method) : Prop :=
  ∃ owner visibility k, methodDecl page.stem owner visibility m.position
      (page.masked.slice m.position (page.statementEnd m.position limit + 1))
      (page.text.slice m.position (page.statementEnd m.position limit + 1)) = .method k ∧
    k.isPure = m.isPure ∧ k.hasInlineBody = m.hasInlineBody

/-- **The head that a type was read from**, with what comes from it: the name, unless a typedef
gives another one, the export mark, the bases, the kind, and the methods that the body declares. -/
structure TypeDecl.IsReadFrom (page : Page) (d : TypeDecl) (head : TypeHead) : Prop where
  opened : ∃ pos, typeHead? page pos = some head
  name : d.name = head.name ∨ head.isTypedef = true
  isExported : d.isExported = head.isExported
  bases : d.bases = head.bases
  kind : d.kind = kindOfType head.isStruct
    (page.masked.slice (head.brace + 1) (page.bodyEnd head))
  methods : ∀ m ∈ d.methods, head.brace < m.position ∧ m.position < page.bodyEnd head ∧
    m.IsReadAt page (page.bodyEnd head)

/-- An open type whose body is read from position `pos` on. -/
def OpenType.IsReadFrom (page : Page) (pos : Nat) (o : OpenType) : Prop :=
  ∃ head, o.decl.IsReadFrom page head ∧ o.decl.name = head.name ∧ o.isTypedef = head.isTypedef ∧
    o.bodyEnd = page.bodyEnd head ∧ head.brace < pos

/-- Every step leaves a type what it was read from. -/
theorem Page.keeps_isReadFrom (page : Page) : page.Keeps (OpenType.IsReadFrom page) where
  opens {pos head _} hhead _ := by
    refine ⟨head, ⟨⟨pos, hhead⟩, Or.inl rfl, rfl, rfl, rfl, fun m hm => ?_⟩, rfl, rfl, rfl,
      Nat.lt_succ_self _⟩
    cases hm
  stays := by
    rintro pos next o ⟨head, hdecl, hname, htypedef, hend, hpos⟩ hle
    exact ⟨head, hdecl, hname, htypedef, hend, Nat.lt_of_lt_of_le hpos hle⟩
  grows := by
    rintro pos o o' ⟨head, hdecl, hname, htypedef, hend, hpos⟩ - hgrows
    obtain ⟨hhead, hnames, hexported, hbases, hkind, hmethods⟩ := hdecl
    cases hgrows with
    | label visibility =>
        exact ⟨head, ⟨hhead, hnames, hexported, hbases, hkind, hmethods⟩, hname, htypedef, hend,
          hpos⟩
    | regionStart hread =>
        exact ⟨head, ⟨hhead, hnames, hexported, hbases, hkind, hmethods⟩, hname, htypedef, hend,
          hpos⟩
    | @regionEnd name hread =>
        obtain ⟨methods, members, heq, hkept, -⟩ := o.endRegion_eq (regionComment false name)
        rw [heq]
        exact ⟨head, ⟨hhead, hnames, hexported, hbases, hkind, hkept hmethods fun _ h => h⟩, hname,
          htypedef, hend, hpos⟩
    | constant hcomments =>
        exact ⟨head, ⟨hhead, hnames, hexported, hbases, hkind, hmethods⟩, hname, htypedef, hend,
          hpos⟩
    | @method start order comments m hle hstart hcomments hread =>
        have hposition := position_methodDecl hread
        refine ⟨head, ⟨hhead, hnames, hexported, hbases, hkind, fun k hk => ?_⟩, hname, htypedef,
          hend, hpos⟩
        rcases List.mem_append.mp hk with hk | hk
        · exact hmethods k hk
        · obtain rfl := List.mem_singleton.mp hk
          subst hposition
          rw [hend] at hstart hread
          exact ⟨Nat.lt_of_lt_of_le hpos hle, hstart, _, _, m, hread, rfl, rfl⟩
    | member hcomments hread =>
        exact ⟨head, ⟨hhead, hnames, hexported, hbases, hkind, hmethods⟩, hname, htypedef, hend,
          hpos⟩

/-- **Every type of a header was read from a head.** -/
theorem exists_isReadFrom {text path : Text} {d : TypeDecl}
    (hd : d ∈ (parseHeader text path).1.types) :
    ∃ head, d.IsReadFrom (Page.ofText text path) head := by
  obtain ⟨pos, o, name, constants, ⟨head, hdecl, hname, htypedef, -, -⟩, hclosing, rfl⟩ :=
    (Page.ofText text path).keeps_isReadFrom.forall_types d hd
  refine ⟨head, hdecl.opened, ?_, hdecl.isExported, hdecl.bases, hdecl.kind, fun m hm => ?_⟩
  · rcases hclosing with hsame | ⟨stop, hisTypedef, -⟩
    · exact Or.inl (hsame.trans hname)
    · exact Or.inr (htypedef ▸ hisTypedef)
  · obtain ⟨k, hk, rfl⟩ := List.mem_map.mp hm
    exact hdecl.methods k hk

/-! ### When the two agree -/

/-- The declaration of a method without body, in a type whose body ends at `limit`, has a pure
ending. -/
def Page.EndsPure (page : Page) (limit : Nat) (m : Method) : Prop :=
  m.hasInlineBody = false ∧ ∃ i, m.position ≤ i ∧
    IsPureEnding (page.masked.slice i (page.statementEnd m.position limit + 1))

/-- The body of a type has a pure ending that is not the end of the declaration of one of its
methods without body. -/
def Page.HasStrayEnding (page : Page) (head : TypeHead) (methods : List Method) : Prop :=
  ∃ i j, head.brace < i ∧ j ≤ page.bodyEnd head ∧ IsPureEnding (page.masked.slice i j) ∧
    ∀ m ∈ methods, m.hasInlineBody = false → m.position ≤ i →
      j ≠ page.statementEnd m.position (page.bodyEnd head) + 1

section

variable {page : Page} {head : TypeHead} {d : TypeDecl}

/-- Such a method is pure. -/
theorem Method.IsReadAt.isPure {limit : Nat} {m : Method} (h : m.IsReadAt page limit)
    (hends : page.EndsPure limit m) : m.isPure = true := by
  obtain ⟨owner, visibility, k, hread, hpure, hbody⟩ := h
  obtain ⟨hnone, i, hi, hending⟩ := hends
  rw [← hpure]
  refine isPure_of_isPureEnding hread (hbody.trans hnone) (i := i - m.position) ?_
  rwa [← Text.slice_add, Nat.add_sub_cancel' hi]

/-- **What makes a class an interface**: a pure ending in its body, be it the end of a method or
not. -/
theorem TypeDecl.IsReadFrom.kind_eq_interface (h : d.IsReadFrom page head)
    (hclass : d.kind ≠ .structType) :
    d.kind = .interfaceType ↔
      (∃ m ∈ d.methods, page.EndsPure (page.bodyEnd head) m) ∨
        page.HasStrayEnding head d.methods := by
  have hisStruct : head.isStruct = false := by
    by_contra hstruct
    exact hclass (by simp [h.kind, kindOfType, hstruct])
  have hkind : d.kind = .interfaceType ↔ ∃ i j, head.brace < i ∧ j ≤ page.bodyEnd head ∧
      IsPureEnding (page.masked.slice i j) := by
    rw [← exists_slice_slice_iff not_isPureEnding_nil, ← occursIn_pureVirtual, h.kind, kindOfType,
      hisStruct]
    cases pureVirtual.occursIn (page.masked.slice (head.brace + 1) (page.bodyEnd head)) <;> simp
  rw [hkind]
  constructor
  · rintro ⟨i, j, hi, hj, hending⟩
    by_cases hmethod : ∃ m ∈ d.methods, m.hasInlineBody = false ∧ m.position ≤ i ∧
        j = page.statementEnd m.position (page.bodyEnd head) + 1
    · obtain ⟨m, hm, hbody, hle, rfl⟩ := hmethod
      exact Or.inl ⟨m, hm, hbody, i, hle, hending⟩
    · refine Or.inr ⟨i, j, hi, hj, hending, fun m hm hbody hle heq => ?_⟩
      exact hmethod ⟨m, hm, hbody, hle, heq⟩
  · rintro (⟨m, hm, hbody, i, hi, hending⟩ | ⟨i, j, hi, hj, hending, -⟩)
    · obtain ⟨hbrace, hlimit, -⟩ := h.methods m hm
      have hstop := page.statementEnd_lt m.position _ hlimit
      exact ⟨i, _, by omega, hstop, hending⟩
    · exact ⟨i, j, hi, hj, hending⟩

/-- **What makes a method of a class pure**: its pure ending, or something else. -/
theorem TypeDecl.IsReadFrom.exists_isPure (h : d.IsReadFrom page head) :
    (∃ m ∈ d.methods, m.isPure = true) ↔
      (∃ m ∈ d.methods, page.EndsPure (page.bodyEnd head) m) ∨
        ∃ m ∈ d.methods, m.isPure = true ∧ ¬ page.EndsPure (page.bodyEnd head) m := by
  constructor
  · rintro ⟨m, hm, hpure⟩
    by_cases hends : page.EndsPure (page.bodyEnd head) m
    · exact Or.inl ⟨m, hm, hends⟩
    · exact Or.inr ⟨m, hm, hpure, hends⟩
  · rintro (⟨m, hm, hends⟩ | ⟨m, hm, hpure, -⟩)
    · exact ⟨m, hm, (h.methods m hm).2.2.isPure hends⟩
    · exact ⟨m, hm, hpure⟩

end

/-- Two alternatives to the same thing agree just if it holds or they do. -/
theorem or_iff_or_iff {a b c : Prop} : (a ∨ b ↔ a ∨ c) ↔ a ∨ (b ↔ c) := by tauto

/-- **When a class is an interface just if it has a pure method.** A class that a header declares
was read from a head, and it is an interface if and only if it has a method without body whose
declaration has a pure ending, or a pure ending stands elsewhere in its body; it has a pure method
if and only if it has such a method, or one that is pure in another form. So the two agree just if
there is such a method, or else an ending elsewhere and a method in another form come together. -/
theorem interface_iff_isPure_iff {text path : Text} {d : TypeDecl}
    (hd : d ∈ (parseHeader text path).1.types) (hclass : d.kind ≠ .structType) :
    ∃ head, d.IsReadFrom (Page.ofText text path) head ∧
      let page := Page.ofText text path
      let endsPure := ∃ m ∈ d.methods, page.EndsPure (page.bodyEnd head) m
      let otherwisePure :=
        ∃ m ∈ d.methods, m.isPure = true ∧ ¬ page.EndsPure (page.bodyEnd head) m
      (d.kind = .interfaceType ↔ endsPure ∨ page.HasStrayEnding head d.methods) ∧
      ((∃ m ∈ d.methods, m.isPure = true) ↔ endsPure ∨ otherwisePure) ∧
      ((d.kind = .interfaceType ↔ ∃ m ∈ d.methods, m.isPure = true) ↔
        endsPure ∨ (page.HasStrayEnding head d.methods ↔ otherwisePure)) := by
  obtain ⟨head, hread⟩ := exists_isReadFrom hd
  have hkind := hread.kind_eq_interface hclass
  have hpure := hread.exists_isPure
  refine ⟨head, hread, hkind, hpure, ?_⟩
  rw [hkind, hpure]
  exact or_iff_or_iff

/-- A class that declares a pure method. -/
def drawText : Text :=
  "class Shape\n\x7b\npublic:\n    virtual void draw() const = 0;\n\x7d;\n"

/-- It is an interface, and its body has a pure ending. -/
theorem interface_drawText :
    ∃ d ∈ (parseHeader drawText "Shape.h").1.types, d.kind = .interfaceType ∧
      ∃ head, d.IsReadFrom (Page.ofText drawText "Shape.h") head ∧
        ((∃ m ∈ d.methods, (Page.ofText drawText "Shape.h").EndsPure
          ((Page.ofText drawText "Shape.h").bodyEnd head) m) ∨
        (Page.ofText drawText "Shape.h").HasStrayEnding head d.methods) := by
  have hmem : ∃ d ∈ (parseHeader drawText "Shape.h").1.types, d.kind = .interfaceType := by
    decide +kernel
  obtain ⟨d, hd, hkind⟩ := hmem
  obtain ⟨head, hread, hiff, -⟩ := interface_iff_isPure_iff hd (by simp [hkind])
  exact ⟨d, hd, hkind, head, hread, hiff.mp hkind⟩

/-- A class without pure methods, one of which assigns to what it calls. -/
def resetText : Text :=
  "class Shape\n\x7b\npublic:\n    void reset() \x7b *first() = 0; \x7d\n    int size;\n\x7d;\n"

/-- The assignment makes it an interface, and it has no pure method. -/
theorem not_forall_interface_iff_isPure :
    ¬ ∀ (text path : Text), ∀ d ∈ (parseHeader text path).1.types, d.kind ≠ .structType →
      (d.kind = .interfaceType ↔ ∃ m ∈ d.methods, m.isPure = true) := by
  intro h
  have hmem : ∃ d ∈ (parseHeader resetText "Shape.h").1.types, d.kind = .interfaceType ∧
      ∀ m ∈ d.methods, m.isPure = false := by
    decide +kernel
  obtain ⟨d, hd, hkind, hnone⟩ := hmem
  obtain ⟨m, hm, hpure⟩ := (h resetText "Shape.h" d hd (by simp [hkind])).mp hkind
  rw [hnone m hm] at hpure
  cases hpure

end Sharpen
