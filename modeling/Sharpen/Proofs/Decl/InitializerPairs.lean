import Mathlib.Data.List.Infix
import Sharpen.Proofs.Code.TopLevel

/-!
# Member Initializers Are Read as They Are Written

A list of member initializers gives names and values. Each pair can be written in parentheses or in
braces, with a comma between two pairs, and reading what is written gives the pairs back. The values
may hold calls, braces, commas and literals: all that is asked of them is that they close what they
open, by the count that splitting goes by, and that their blanks are settled. The kinds of brackets
need not fit each other.

The count keeps the depth of all brackets together and whether a literal is open. A balanced text
leaves both as they were, and so does the text in brackets; what is in it is passed over. The pairs
that can be written are those whose names are qualified names and whose values are balanced and
trimmed, with single spaces for their blanks.

## Main definitions

* `IsBalanced` — a text that closes what it opens; `Initializer.IsWritable` — the pairs that are
  meant.
* `IsPassed` — a text that splitting passes over, and behind which it stands as at the start.
* `SplitState.deepen` — the same place inside of `d` more brackets.
* `Initializer.write` — a pair as it is written, in braces or in parentheses.

## Main results

* `parseInitializers_write` — a list that is written is read again.
* `IsBalanced.isPassed_brackets` — a balanced text in brackets is passed over.
-/

namespace Sharpen

/-! ### Closed brackets and literals -/

/-- **Brackets and literals are closed**, as splitting counts them without angle brackets: the depth
is never below zero, and at the end it is zero and no literal is open. -/
structure IsBalanced (t : Text) : Prop where
  depth_nonneg : ∀ before ∈ t.inits, 0 ≤ (SplitState.behind false {} before).depth
  depth_eq : (SplitState.behind false {} t).depth = 0
  quote_eq : (SplitState.behind false {} t).quote = none

namespace SplitState

/-- The same place inside of `d` more brackets. -/
def deepen (d : Int) (s : SplitState) : SplitState :=
  { s with depth := s.depth + d }

/-- The brackets around a text change nothing but the depth. -/
theorem next_deepen (angles : Bool) (d : Int) (s : SplitState) (c : Char) :
    (s.deepen d).next angles c = (s.next angles c).deepen d := by
  obtain ⟨depth, quote, escaped⟩ := s
  cases quote with
  | none =>
      simp only [next, deepen]
      split_ifs
      · rfl
      · rw [Int.add_right_comm]
      · rw [Int.sub_eq_add_neg, Int.add_right_comm, ← Int.sub_eq_add_neg]
      · rfl
  | some q =>
      cases escaped with
      | true => rfl
      | false =>
          simp only [next, deepen, Bool.false_eq_true, if_false]
          split_ifs <;> rfl

/-- Starting deeper in brackets leaves a cutting deeper by the same. -/
theorem behind_deepen (angles : Bool) (d : Int) (s : SplitState) (t : Text) :
    (s.deepen d).behind angles t = (s.behind angles t).deepen d := by
  induction t generalizing s with
  | nil => rfl
  | cons c t ih => rw [behind_cons, next_deepen, ih, behind_cons]

/-- The characters of a name change nothing. -/
theorem next_of_isQualifiedChar {c : Char} (h : isQualifiedChar c = true) :
    SplitState.next false {} c = {} := by
  have hne : ∀ d, isQualifiedChar d = false → c ≠ d := by
    rintro d hd rfl
    rw [h] at hd
    cases hd
  simp [next, isQuote, hne '"' rfl, hne '\'' rfl, hne '(' rfl, hne ')' rfl,
    hne '[' rfl, hne ']' rfl, hne '\x7b' rfl, hne '\x7d' rfl]

end SplitState

namespace IsBalanced

variable {t : Text} (h : IsBalanced t)

include h

/-- Behind a balanced text the cutting is at the start again. -/
theorem behind_eq : SplitState.behind false {} t = {} := by
  have hescaped := SplitState.isSettled_start.behind false t h.quote_eq
  have hdepth := h.depth_eq
  have hquote := h.quote_eq
  cases hs : SplitState.behind false {} t with
  | mk depth quote escaped =>
      rw [hs] at hdepth hquote hescaped
      obtain rfl : depth = 0 := hdepth
      obtain rfl : quote = none := hquote
      obtain rfl : escaped = false := hescaped
      rfl

/-- Inside of brackets nothing is cut. -/
theorem isUncut_deepen : IsUncut ',' false (SplitState.deepen 1 {}) t := by
  intro before after ht
  have hdepth := h.depth_nonneg before ((List.mem_inits _ _).mpr (ht ▸ List.prefix_append _ _))
  have hne : ((SplitState.behind false {} before).depth + 1 == 0) = false := by
    rw [beq_eq_false_iff_ne]
    omega
  rw [SplitState.behind_deepen, SplitState.cuts]
  simp [SplitState.deepen, hne]

end IsBalanced

/-! ### Texts that are passed over -/

/-- **Splitting passes over a text** and stands behind it as at the start. -/
structure IsPassed (t : Text) : Prop where
  isUncut : IsUncut ',' false {} t
  behind_eq : SplitState.behind false {} t = {}

/-- Two texts that a cutting passes are passed one behind the other. -/
theorem IsPassed.append {t u : Text} (ht : IsPassed t) (hu : IsPassed u) : IsPassed (t ++ u) where
  isUncut := isUncut_append_iff.mpr ⟨ht.isUncut, by rw [ht.behind_eq]; exact hu.isUncut⟩
  behind_eq := by rw [SplitState.behind_append, ht.behind_eq, hu.behind_eq]

/-- Nothing at all is passed. -/
theorem isPassed_nil : IsPassed [] :=
  ⟨isUncut_nil _ _ _, rfl⟩

/-- A space is passed. -/
theorem isPassed_space : IsPassed [' '] :=
  ⟨isUncut_cons_iff.mpr ⟨rfl, isUncut_nil _ _ _⟩, rfl⟩

/-- A name is passed over. -/
theorem isPassed_name {name : Text} (h : ∀ c ∈ name, isQualifiedChar c = true) : IsPassed name := by
  induction name with
  | nil => exact isPassed_nil
  | cons c name ih =>
      have hc := h c List.mem_cons_self
      have hcomma : c ≠ ',' := by
        rintro rfl
        exact absurd hc (by decide)
      refine IsPassed.append (t := [c]) ⟨?_, SplitState.next_of_isQualifiedChar hc⟩
        (ih fun x hx => h x (List.mem_cons_of_mem _ hx))
      exact isUncut_cons_iff.mpr ⟨by simp [SplitState.cuts, hcomma], isUncut_nil _ _ _⟩

/-- **A balanced text in brackets is passed over.** -/
theorem IsBalanced.isPassed_brackets {value : Text} (h : IsBalanced value) {opn close : Char}
    (hbrackets : opn = '(' ∧ close = ')' ∨ opn = '\x7b' ∧ close = '\x7d') :
    IsPassed (opn :: (value ++ [close])) := by
  have hopn : SplitState.next false {} opn = SplitState.deepen 1 {} ∧
      SplitState.cuts ',' false {} opn = false := by
    rcases hbrackets with ⟨rfl, -⟩ | ⟨rfl, -⟩ <;> exact ⟨rfl, rfl⟩
  have hclose : (SplitState.deepen 1 {}).next false close = {} ∧
      (SplitState.deepen 1 {}).cuts ',' false close = false := by
    rcases hbrackets with ⟨-, rfl⟩ | ⟨-, rfl⟩ <;> exact ⟨rfl, rfl⟩
  have hvalue : (SplitState.deepen 1 {}).behind false value = SplitState.deepen 1 {} := by
    rw [SplitState.behind_deepen, h.behind_eq]
  constructor
  · rw [isUncut_cons_iff, hopn.1, isUncut_append_iff, hvalue]
    exact ⟨hopn.2, h.isUncut_deepen, isUncut_cons_iff.mpr ⟨hclose.2, isUncut_nil _ _ _⟩⟩
  · rw [SplitState.behind_cons, hopn.1, SplitState.behind_append, hvalue, SplitState.behind_cons,
      hclose.1, SplitState.behind_nil]

/-- Texts that are passed over are what a list of them is split into, with the blank that follows
each comma. -/
theorem splitsInto_join {gap t : Text} {ts : List Text} (hgap : IsPassed gap) (ht : IsPassed t)
    (hts : ∀ u ∈ ts, IsPassed u) : SplitsInto ',' false {} (gap ++ Text.join ", " (t :: ts))
      ((gap ++ t) :: ts.map (' ' :: ·)) := by
  induction ts generalizing gap t with
  | nil =>
      have hjoin : Text.join ", " [t] = t := by simp [Text.join, List.intercalate]
      rw [hjoin]
      exact .whole (hgap.append ht).isUncut
  | cons u ts ih =>
      have hpart := hgap.append ht
      have hrest := ih isPassed_space (hts u List.mem_cons_self)
        fun v hv => hts v (List.mem_cons_of_mem _ hv)
      have hjoin : gap ++ Text.join ", " (t :: u :: ts) =
          (gap ++ t) ++ ',' :: ([' '] ++ Text.join ", " (u :: ts)) := by
        simp [join_cons_cons]
      rw [hjoin]
      refine .cut hpart.isUncut ?_ ?_
      · rw [hpart.behind_eq]
        rfl
      · rw [hpart.behind_eq]
        exact hrest

/-! ### Pairs -/

namespace Initializer

/-- **A pair that can be written**: the name is a row of word characters and colons, and the value
is balanced, with single spaces between its words. -/
structure IsWritable (i : Initializer) : Prop where
  name_ne_nil : i.name ≠ []
  isQualifiedChar_name : ∀ c ∈ i.name, isQualifiedChar c = true
  value_isNormal : i.value.normalizeBlanks = i.value
  value_isBalanced : IsBalanced i.value

/-- A pair as it is written, in braces or in parentheses. -/
def write (i : Initializer) (braced : Bool) : Text :=
  if braced then i.name ++ '\x7b' :: (i.value ++ ['\x7d']) else i.name ++ '(' :: (i.value ++ [')'])

/-- An initializer is written as its name and its value in one of the two kinds of brackets. -/
theorem exists_write_eq (i : Initializer) (braced : Bool) : ∃ opn close,
    (opn = '(' ∧ close = ')' ∨ opn = '\x7b' ∧ close = '\x7d') ∧
      i.write braced = i.name ++ opn :: (i.value ++ [close]) := by
  cases braced
  · exact ⟨'(', ')', Or.inl ⟨rfl, rfl⟩, rfl⟩
  · exact ⟨'\x7b', '\x7d', Or.inr ⟨rfl, rfl⟩, rfl⟩

variable {i : Initializer} (h : i.IsWritable) (braced : Bool)

include h

/-- A writable initializer is passed in either. -/
theorem IsWritable.isPassed_write : IsPassed (i.write braced) := by
  obtain ⟨opn, close, hbrackets, htext⟩ := i.exists_write_eq braced
  rw [htext]
  exact (isPassed_name h.isQualifiedChar_name).append
    (h.value_isBalanced.isPassed_brackets hbrackets)

/-- A part of a list is read as the pair that it writes. -/
theorem IsWritable.initializer?_write {gap : Text} (hgap : gap.isBlank = true) :
    initializer? (gap ++ i.write braced) = some i := by
  obtain ⟨opn, close, hbrackets, htext⟩ := i.exists_write_eq braced
  have hread := initializer?_brackets h.name_ne_nil h.isQualifiedChar_name hbrackets i.value hgap
    (show Text.isBlank [] = true from rfl)
  rwa [List.append_nil, h.value_isNormal, ← htext] at hread

end Initializer

section

variable {pairs : List (Initializer × Bool)} (h : ∀ p ∈ pairs, p.1.IsWritable)

include h

/-- So are all of a list. -/
theorem forall_isPassed_write : ∀ t ∈ pairs.map fun p => p.1.write p.2, IsPassed t := by
  intro t ht
  obtain ⟨p, hp, rfl⟩ := List.mem_map.mp ht
  exact (h p hp).isPassed_write p.2

/-- The parts behind the first comma are read as the pairs that they write. -/
theorem filterMap_write :
    ((pairs.map fun p => p.1.write p.2).map (' ' :: ·)).filterMap initializer? =
      pairs.map Prod.fst := by
  induction pairs with
  | nil => rfl
  | cons p ps ih =>
      obtain ⟨hp, hps⟩ := List.forall_mem_cons.mp h
      have hread := hp.initializer?_write p.2 (show Text.isBlank [' '] = true from rfl)
      rw [List.singleton_append] at hread
      rw [List.map_cons, List.map_cons, List.map_cons, List.filterMap_cons_some hread, ih hps]

end

/-- **A list of pairs that is written is read again**, with each pair in parentheses or in
braces. -/
theorem parseInitializers_write (pairs : List (Initializer × Bool))
    (h : ∀ p ∈ pairs, p.1.IsWritable) :
    parseInitializers (Text.join ", " (pairs.map fun p => p.1.write p.2)) = pairs.map Prod.fst := by
  cases pairs with
  | nil => rfl
  | cons p ps =>
      obtain ⟨hp, hps⟩ := List.forall_mem_cons.mp h
      have hparts : splitFrom ',' false {} (Text.join ", " (p.1.write p.2 ::
          ps.map fun p => p.1.write p.2)) = p.1.write p.2 ::
          (ps.map fun p => p.1.write p.2).map (' ' :: ·) :=
        (splitsInto_join isPassed_nil (hp.isPassed_write p.2)
          (forall_isPassed_write hps)).splitFrom_eq
      have hread := hp.initializer?_write p.2 (show Text.isBlank [] = true from rfl)
      rw [List.nil_append] at hread
      rw [parseInitializers, splitTopLevel, List.map_cons, hparts, List.filterMap_cons_some hread,
        filterMap_write hps, List.map_cons]

/-- A call in which the brackets do not fit each other, and two literals with a brace, a comma and a
quote in them. -/
theorem parseInitializers_write_nested :
    (∀ p ∈ [((⟨"Base::size", "max(a, [b)) - 1"⟩ : Initializer), false),
        (⟨"mark", "\"\x7d,\", '\\''"⟩, true)], p.1.IsWritable) ∧
      parseInitializers "Base::size(max(a, [b)) - 1), mark\x7b\"\x7d,\", '\\''\x7d" =
        [⟨"Base::size", "max(a, [b)) - 1"⟩, ⟨"mark", "\"\x7d,\", '\\''"⟩] := by
  have h : ∀ p ∈ [((⟨"Base::size", "max(a, [b)) - 1"⟩ : Initializer), false),
      (⟨"mark", "\"\x7d,\", '\\''"⟩, true)], p.1.IsWritable := by
    refine List.forall_mem_cons.mpr ⟨?_, List.forall_mem_singleton.mpr ?_⟩
    · exact ⟨by decide, List.all_eq_true.mp rfl, by decide, by decide, by decide, by decide⟩
    · exact ⟨by decide, List.all_eq_true.mp rfl, by decide, by decide, by decide, by decide⟩
  exact ⟨h, parseInitializers_write _ h⟩

end Sharpen
