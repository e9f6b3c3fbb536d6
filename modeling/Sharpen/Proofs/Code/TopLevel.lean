import Sharpen.Proofs.Decl.InitializerList

/-!
# Parts Between Separators

A text is split at the separators that no bracket and no literal encloses, by one scan that is told
nothing of the parts before. What it does at a cut is the same as at the start of a text: the
brackets count to zero there, and no literal is open. So a part on its own is scanned as it was
inside of the text, and nothing is cut in it.

The scan is compared with its own state: `SplitState.behind` is the state in which it stands behind
a text, and a text is uncut when no character of it cuts in the state reached there. These two
describe the parts completely, so that joining the parts and splitting them again can be argued
about without the scan.

Nothing is said of the brackets of the text, which need not be balanced, nor of the separator, which
may be a bracket or a quote and is never cut at then.

## Main definitions

* `SplitState.behind`, `IsUncut` — the state behind a text, and the texts in which nothing is cut.
* `SplitsInto` — which parts a text is split into, said without the scan; `splitFrom_eq_iff` says
  that these are the parts that the scan gives.
* `SplitState.IsSettled` — nothing is remembered outside of a literal but the depth.

## Main results

* `splitTopLevel_parts` — the parts with the separator between them are the text, and every part is
  split into itself.
* `SplitState.IsSettled.eq_start` — at a cut the scan stands as at the start.
* `SplitsInto.join_eq` — nothing is lost: the parts with the separator between them are the text.
* `SplitsInto.isUncut_start` — nothing is left to cut, wherever a part is looked at on its own.
-/

namespace Sharpen

/-! ### The state of a scan -/

namespace SplitState

/-- The state behind a text in which nothing is cut. -/
def behind (angles : Bool) (s : SplitState) (t : Text) : SplitState :=
  t.foldl (SplitState.next angles) s

/-- **Nothing is remembered outside of a literal** but the depth. -/
def IsSettled (s : SplitState) : Prop :=
  s.quote = none → s.escaped = false

variable {sep : Char} {angles : Bool} {s : SplitState}

@[simp]
theorem behind_nil (angles : Bool) (s : SplitState) : s.behind angles [] = s :=
  rfl

@[simp]
theorem behind_cons (angles : Bool) (s : SplitState) (c : Char) (t : Text) :
    s.behind angles (c :: t) = (s.next angles c).behind angles t :=
  rfl

theorem behind_append (angles : Bool) (s : SplitState) (t u : Text) :
    s.behind angles (t ++ u) = (s.behind angles t).behind angles u :=
  List.foldl_append

/-- At the start of a text the cutting is settled. -/
theorem isSettled_start : IsSettled {} :=
  fun _ => rfl

/-- A character leaves nothing else to remember. -/
theorem IsSettled.next (h : s.IsSettled) (angles : Bool) (c : Char) :
    (s.next angles c).IsSettled := by
  intro hquote
  obtain ⟨depth, quote, escaped⟩ := s
  cases quote with
  | none =>
      obtain rfl : escaped = false := h rfl
      simp only [SplitState.next]
      split_ifs <;> rfl
  | some q =>
      simp only [SplitState.next] at hquote ⊢
      split_ifs at hquote ⊢ with hescaped hbackslash hclose
      exact Bool.eq_false_iff.mpr hescaped

/-- It is settled behind every text. -/
theorem IsSettled.behind (h : s.IsSettled) (angles : Bool) (t : Text) :
    (s.behind angles t).IsSettled :=
  List.foldlRecOn t _ h fun _ hs c _ => hs.next angles c

/-- **At a cut the scan stands as at the start.** -/
theorem IsSettled.eq_start (h : s.IsSettled) {c : Char} (hcut : s.cuts sep angles c = true) :
    s = {} := by
  obtain ⟨depth, quote, escaped⟩ := s
  simp only [cuts, Bool.and_eq_true, beq_iff_eq, Option.isNone_iff_eq_none] at hcut
  obtain ⟨⟨⟨-, rfl⟩, rfl⟩, -⟩ := hcut
  rw [show escaped = false from h rfl]

/-- A character that cuts is the separator. -/
theorem eq_sep_of_cuts {c : Char} (hcut : s.cuts sep angles c = true) : c = sep := by
  simp only [cuts, Bool.and_eq_true, beq_iff_eq] at hcut
  exact hcut.1.1.1

end SplitState

/-! ### Texts in which nothing is cut -/

/-- **Nothing is cut in a text** that is reached in state `s`: the separators in it stand inside of
brackets or literals. -/
def IsUncut (sep : Char) (angles : Bool) (s : SplitState) (t : Text) : Prop :=
  ∀ before after, t = before ++ sep :: after → (s.behind angles before).cuts sep angles sep = false

section

variable {sep : Char} {angles : Bool} {s : SplitState} {t : Text}

theorem isUncut_nil (sep : Char) (angles : Bool) (s : SplitState) : IsUncut sep angles s [] := by
  intro before after h
  simp at h

/-- A text is uncut when its first character does not cut and the rest is uncut behind it. -/
theorem isUncut_cons_iff {c : Char} : IsUncut sep angles s (c :: t) ↔
    s.cuts sep angles c = false ∧ IsUncut sep angles (s.next angles c) t := by
  constructor
  · intro h
    refine ⟨Bool.eq_false_iff.mpr fun hcut => ?_, fun before after ht => ?_⟩
    · obtain rfl := SplitState.eq_sep_of_cuts hcut
      exact absurd hcut (by simp [show s.cuts c angles c = false from h [] t rfl])
    · exact h (c :: before) after (by rw [ht]; rfl)
  · rintro ⟨hhead, htail⟩ before after ht
    cases before with
    | nil =>
        obtain ⟨rfl, -⟩ := List.cons.inj ht
        exact hhead
    | cons x before =>
        obtain ⟨rfl, rfl⟩ := List.cons.inj ht
        exact htail before after rfl

/-- Two texts are uncut one behind the other when the first is, and the second from where it leaves
the cutting. -/
theorem isUncut_append_iff {u : Text} : IsUncut sep angles s (t ++ u) ↔
    IsUncut sep angles s t ∧ IsUncut sep angles (s.behind angles t) u := by
  induction t generalizing s with
  | nil => simp [isUncut_nil]
  | cons c t ih =>
      rw [List.cons_append, isUncut_cons_iff, isUncut_cons_iff, ih, and_assoc,
        SplitState.behind_cons]

/-- What is uncut is passed over. -/
theorem IsUncut.splitFrom_append (h : IsUncut sep angles s t) (u : Text) :
    splitFrom sep angles s (t ++ u) =
      prependHead t (splitFrom sep angles (s.behind angles t) u) := by
  induction t generalizing s with
  | nil => rfl
  | cons c t ih =>
      obtain ⟨hhead, htail⟩ := isUncut_cons_iff.mp h
      rw [List.cons_append, splitFrom, hhead, if_neg (by decide), ih htail]
      rfl

/-- It is split into itself. -/
theorem IsUncut.splitFrom_eq (h : IsUncut sep angles s t) : splitFrom sep angles s t = [t] := by
  have hsplit := h.splitFrom_append []
  rwa [List.append_nil, splitFrom, prependHead_cons, List.append_nil] at hsplit

/-! ### What a text is split into -/

/-- **The parts of a text** that is reached in a state: either nothing is cut in it, or it is cut at
the first place where this can be done, and what follows is split in the state that stands there. -/
inductive SplitsInto (sep : Char) (angles : Bool) : SplitState → Text → List Text → Prop
  | whole {s : SplitState} {t : Text} : IsUncut sep angles s t → SplitsInto sep angles s t [t]
  | cut {s : SplitState} {p t : Text} {parts : List Text} : IsUncut sep angles s p →
      (s.behind angles p).cuts sep angles sep = true →
      SplitsInto sep angles (s.behind angles p) t parts →
      SplitsInto sep angles s (p ++ sep :: t) (p :: parts)

namespace SplitsInto

variable {parts : List Text}

/-- A character that is not cut at belongs to the first part. -/
theorem consHead {c : Char} (hc : s.cuts sep angles c = false)
    (h : SplitsInto sep angles (s.next angles c) t parts) :
    SplitsInto sep angles s (c :: t) (Text.consHead c parts) := by
  cases h with
  | whole ht => exact .whole (isUncut_cons_iff.mpr ⟨hc, ht⟩)
  | cut hpart hcut hrest => exact .cut (p := c :: _) (isUncut_cons_iff.mpr ⟨hc, hpart⟩) hcut hrest

/-- Cutting a text gives parts that it splits into. -/
theorem of_splitFrom (sep : Char) (angles : Bool) (s : SplitState) (t : Text) :
    SplitsInto sep angles s t (splitFrom sep angles s t) := by
  induction t generalizing s with
  | nil => exact .whole (isUncut_nil sep angles s)
  | cons c t ih =>
      rw [splitFrom]
      cases hcut : s.cuts sep angles c with
      | true =>
          obtain rfl := SplitState.eq_sep_of_cuts hcut
          exact .cut (p := []) (isUncut_nil c angles s) hcut (ih s)
      | false => exact (ih (s.next angles c)).consHead hcut

/-- It splits into no others. -/
theorem splitFrom_eq (h : SplitsInto sep angles s t parts) : splitFrom sep angles s t = parts := by
  induction h with
  | whole ht => exact ht.splitFrom_eq
  | cut hpart hcut _ ih =>
      rw [hpart.splitFrom_append, splitFrom, if_pos hcut, ih, prependHead_cons, List.append_nil]

/-- There is at least one part. -/
theorem ne_nil (h : SplitsInto sep angles s t parts) : parts ≠ [] := by
  cases h <;> exact List.cons_ne_nil _ _

/-- **Nothing is lost**: the parts with the separator between them are the text. -/
theorem join_eq (h : SplitsInto sep angles s t parts) : Text.join [sep] parts = t := by
  induction h with
  | whole => simp [Text.join]
  | cut _ _ hrest ih =>
      obtain ⟨next, parts, rfl⟩ := List.exists_cons_of_ne_nil hrest.ne_nil
      rw [join_cons_cons, ih]
      rfl

/-- **Nothing is left to cut**, wherever a part is looked at on its own. -/
theorem isUncut_start (h : SplitsInto sep angles s t parts) (hs : s = {}) :
    ∀ part ∈ parts, IsUncut sep angles {} part := by
  induction h with
  | whole ht =>
      subst hs
      exact List.forall_mem_singleton.mpr ht
  | cut hpart hcut _ ih =>
      subst hs
      have hstart := (SplitState.isSettled_start.behind angles _).eq_start hcut
      exact List.forall_mem_cons.mpr ⟨hpart, ih hstart⟩

end SplitsInto

/-- **The scan splits a text into its parts**, and into no others. -/
theorem splitFrom_eq_iff {parts : List Text} :
    splitFrom sep angles s t = parts ↔ SplitsInto sep angles s t parts :=
  ⟨fun h => h ▸ .of_splitFrom sep angles s t, SplitsInto.splitFrom_eq⟩

end

/-- **Splitting loses nothing and leaves nothing to split.** The parts with the separator between
them are the text. Each of them is split into itself: wherever the separator stands in it, a scan
from the start of the part does not cut. -/
theorem splitTopLevel_parts (sep : Char) (angles : Bool) (t : Text) :
    Text.join [sep] (splitTopLevel sep angles t) = t ∧
      ∀ part ∈ splitTopLevel sep angles t, splitTopLevel sep angles part = [part] ∧
        ∀ before after, part = before ++ sep :: after →
          (SplitState.behind angles {} before).cuts sep angles sep = false := by
  have hsplits := SplitsInto.of_splitFrom sep angles {} t
  refine ⟨hsplits.join_eq, fun part hpart => ?_⟩
  have huncut := hsplits.isUncut_start rfl part hpart
  exact ⟨huncut.splitFrom_eq, huncut⟩

/-- An expression with an arrow, a call, two literals and a bracket that closes nothing: the comma
behind that bracket is not cut at, and neither are those in the call and the literals. -/
theorem splitTopLevel_parts_unbalanced :
    Text.join [','] (splitTopLevel ',' false "a->b, f(x, \"y,)\"), '\\',' ] , c") =
        "a->b, f(x, \"y,)\"), '\\',' ] , c" ∧
      " '\\',' ] , c".toList ∈ splitTopLevel ',' false "a->b, f(x, \"y,)\"), '\\',' ] , c" ∧
      splitTopLevel ',' false " '\\',' ] , c" = [" '\\',' ] , c"] ∧
      (SplitState.behind false {} " '\\',' ] ").cuts ',' false ',' = false := by
  obtain ⟨hjoin, hparts⟩ := splitTopLevel_parts ',' false "a->b, f(x, \"y,)\"), '\\',' ] , c"
  have hmem : " '\\',' ] , c".toList ∈
      splitTopLevel ',' false "a->b, f(x, \"y,)\"), '\\',' ] , c" := by decide
  obtain ⟨hself, huncut⟩ := hparts _ hmem
  exact ⟨hjoin, hmem, hself, huncut " '\\',' ] " " c" rfl⟩

end Sharpen
