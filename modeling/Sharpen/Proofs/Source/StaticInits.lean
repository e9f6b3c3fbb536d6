import Mathlib.Data.List.Nodup
import Sharpen.Proofs.Source.Constructor

/-!
# The Order of Static Initializers

Static initializers are found from left to right and without overlap, and each of them stands at a
place between the start and the end of its match. So no two of them stand at the same place, and the
static initializers of a source are in the order of its text.

Matches of a reader follow each other without overlap, so places within the matches increase with
them. What remains is to show that the place of an initializer is within its match, which is put
together from the parts of the reader. The initializers that are kept are some of those found, in
the same order.

## Main definitions

* `Reader.StartsWithin` — what a reader gives has a place within what it reads;
  `StartsWithin.pairwise_findFrom` says that the places of all its matches increase.
* `StaticInitMatch.start` — where the type of a static initializer starts, or its owner if it has
  none.

## Main results

* `startsWithin_staticInit` — the start of a static initializer lies within its match.
* `pairwise_staticInits_parseSource` — the static initializers of a source file.
-/

namespace Sharpen

/-! ### Places within matches -/

namespace Reader

variable {α β : Type}

/-- What a reader gives has a place within what it reads. -/
def StartsWithin (r : Reader α) (start : α → Nat) : Prop :=
  ∀ ⦃c c' : Cursor⦄ ⦃a : α⦄, r.run c = some (a, c') → c.position ≤ start a ∧ start a < c'.position

/-- **Places within the matches of a reader increase.** -/
theorem StartsWithin.pairwise_findFrom {r : Reader α} {start : α → Nat} (hr : r.StartsWithin start)
    (skip position : Nat) (before : Option Char) (t : Text) :
    (∀ a ∈ r.findFrom skip position before t, position + skip ≤ start a) ∧
      (r.findFrom skip position before t).Pairwise fun a b => start a < start b := by
  induction t generalizing skip position before with
  | nil => simp [findFrom]
  | cons x t ih =>
      cases skip with
      | succ skip =>
          obtain ⟨hle, hpairs⟩ := ih skip (position + 1) (some x)
          refine ⟨fun a ha => ?_, hpairs⟩
          have := hle a ha
          omega
      | zero =>
          rw [findFrom]
          cases hrun : r.run ⟨position, before, x :: t⟩ with
          | none =>
              obtain ⟨hle, hpairs⟩ := ih 0 (position + 1) (some x)
              refine ⟨fun a ha => ?_, hpairs⟩
              have := hle a ha
              omega
          | some p =>
              obtain ⟨hstart, hend⟩ := hr hrun
              obtain ⟨hle, hpairs⟩ := ih (p.2.position - position - 1) (position + 1) (some x)
              have hbehind :
                  ∀ a ∈ r.findFrom (p.2.position - position - 1) (position + 1) (some x) t,
                  start p.1 < start a := by
                intro a ha
                have := hle a ha
                dsimp only at hstart
                omega
              refine ⟨?_, List.pairwise_cons.mpr ⟨hbehind, hpairs⟩⟩
              intro a ha
              rcases List.mem_cons.mp ha with rfl | ha
              · exact hstart
              · exact Nat.le_of_lt (Nat.lt_of_le_of_lt hstart (hbehind a ha))

/-- A run of characters leads on. -/
theorem position_lt_of_many1 {p : Char → Bool} {c c' : Cursor} {w : Text}
    (h : (many1 p).run c = some (w, c')) : c.position < c'.position := by
  simp only [many1, StateT.run_bind, Option.bind_eq_bind, Option.bind_eq_some_iff] at h
  obtain ⟨⟨run, c₁⟩, hrun, hword⟩ := h
  obtain ⟨rfl, rfl⟩ := Prod.mk.inj (Option.some.inj hrun)
  split at hword
  · cases hword
  · rename_i hne
    obtain ⟨-, rfl⟩ := Prod.mk.inj (Option.some.inj hword)
    obtain ⟨x, r, hrest⟩ := List.exists_cons_of_ne_nil (l := c.rest) (by
      rintro hnil
      exact hne (by rw [hnil]; rfl))
    obtain ⟨k, hk⟩ := Nat.exists_eq_succ_of_ne_zero
      (n := (c.rest.takeWhile p).length) (by simpa [List.isEmpty_iff] using hne)
    have hstep : c.skip (k + 1) = Cursor.skip ⟨c.position + 1, some x, r⟩ k := by
      rw [Cursor.skip, hrest]
    rw [hk, hstep]
    exact Cursor.le_position_skip ⟨c.position + 1, some x, r⟩ k

/-- The place in front of a run of characters. -/
theorem startsWithin_here_many1 {p : Char → Bool} {start : α → Nat} {k : Nat → Text → Reader α}
    (hk : ∀ i w I, (k i w).Gives I fun a => start a = i) :
    (do let i ← here; let w ← many1 p; k i w).StartsWithin start := by
  intro c c' a h
  simp only [StateT.run_bind, Option.bind_eq_bind, Option.bind_eq_some_iff] at h
  obtain ⟨⟨i, c₁⟩, hhere, ⟨w, c₂⟩, hmany, hrun⟩ := h
  obtain ⟨rfl, rfl⟩ := Prod.mk.inj (Option.some.inj hhere)
  obtain ⟨hstart, hend⟩ := hk _ w (Track.beyond c₂.position) (Nat.le_refl c₂.position) hrun
  rw [hstart]
  exact ⟨Nat.le_refl _, Nat.lt_of_lt_of_le (position_lt_of_many1 hmany) hend⟩

namespace StartsWithin

/-- The place that a reader gives is handed on. -/
theorem bind {r : Reader β} {place : β → Nat} {start : α → Nat} {k : β → Reader α}
    (hr : r.StartsWithin place) (hk : ∀ b I, (k b).Gives I fun a => start a = place b) :
    (r >>= k).StartsWithin start := by
  intro c c' a h
  simp only [StateT.run_bind, Option.bind_eq_bind, Option.bind_eq_some_iff] at h
  obtain ⟨⟨b, c₁⟩, hfirst, hrun⟩ := h
  obtain ⟨hle, hlt⟩ := hr hfirst
  obtain ⟨hstart, hend⟩ := hk b (Track.beyond c₁.position) (Nat.le_refl c₁.position) hrun
  rw [hstart]
  exact ⟨hle, Nat.lt_of_lt_of_le hlt hend⟩

/-- What is read before makes no difference. -/
theorem behind {P : β → Prop} {r : Reader β} {start : α → Nat} {k : β → Reader α}
    (hr : ∀ I, r.Gives I P) (hk : ∀ b, (k b).StartsWithin start) :
    (r >>= k).StartsWithin start := by
  intro c c' a h
  simp only [StateT.run_bind, Option.bind_eq_bind, Option.bind_eq_some_iff] at h
  obtain ⟨⟨b, c₁⟩, hfirst, hrun⟩ := h
  obtain ⟨-, hend⟩ := hr (Track.beyond c.position) (Nat.le_refl c.position) hfirst
  obtain ⟨hle, hlt⟩ := hk b hrun
  exact ⟨Nat.le_trans hend hle, hlt⟩

/-- Of two readers that start within their matches, one or the other does. -/
theorem orElse {r r' : Reader α} {start : α → Nat} (hr : r.StartsWithin start)
    (hr' : r'.StartsWithin start) : (r <|> r').StartsWithin start := by
  intro c c' a h
  cases hfirst : r.run c with
  | none =>
      have hsecond : (r <|> r').run c = r'.run c := by
        change (r.run c <|> r'.run c) = _
        rw [hfirst]
        rfl
      exact hr' (hsecond ▸ h)
  | some p =>
      have hsame : (r <|> r').run c = some p := by
        change (r.run c <|> r'.run c) = _
        rw [hfirst]
        rfl
      exact hr (hfirst.trans (hsame.symm.trans h))

end StartsWithin

end Reader

/-! ### Static initializers -/

/-- Where the type of a static initializer starts, or its owner if it has none. -/
def StaticInitMatch.start (m : StaticInitMatch) : Nat :=
  (m.type.map Prod.snd).getD m.ownerStart

/-- The value of an initializer leaves the track. -/
theorem gives_staticInitValue {I : Track} : staticInitValue.Gives I fun _ => True := by
  refine Reader.gives_here.bind fun _ _ => (Reader.gives_many _).bind fun value _ => ?_
  refine Reader.gives_here.bind fun _ _ => (Reader.gives_char _).bind fun _ _ => ?_
  split
  · exact Reader.gives_failure
  · exact Reader.gives_pure trivial

/-- The type of an initializer starts within the match. -/
theorem startsWithin_staticInitType : staticInitType.StartsWithin Prod.snd := by
  refine Reader.startsWithin_here_many1 fun i w I => ?_
  refine (Reader.Gives.option (P := fun _ => True) ?_).bind fun _ _ => ?_
  · refine (Reader.gives_many _).bind fun _ _ => (Reader.gives_satisfy _).bind fun _ _ => ?_
    exact Reader.gives_pure trivial
  · exact Reader.gives_blanks1.bind fun _ _ => Reader.gives_pure rfl

/-- What stands behind the owner of a static initializer. -/
theorem gives_behindOwner {I : Track} {P : StaticInitMatch → Prop} {f : Text → Option Text →
    Nat × Nat → StaticInitMatch} (hf : ∀ name size span, P (f name size span)) :
    Reader.Gives (do
      Reader.blanks
      Reader.text "::"
      Reader.blanks
      let name ← Reader.many1 isWord
      Reader.blanks
      let size ← Reader.option do
        Reader.char '['
        Reader.blanks
        let size ← Reader.many isWord
        Reader.blanks
        Reader.char ']'
        pure size
      Reader.blanks
      Reader.char '='
      let span ← staticInitValue
      pure (f name size span)) I P := by
  refine Reader.gives_blanks.bind fun _ _ => (Reader.gives_text _).bind fun _ _ => ?_
  refine Reader.gives_blanks.bind fun _ _ => (Reader.gives_many1 _).bind fun _ _ => ?_
  refine Reader.gives_blanks.bind fun _ _ => ?_
  refine (Reader.Gives.option (P := fun _ => True) ?_).bind fun _ _ => ?_
  · refine (Reader.gives_char _).bind fun _ _ => Reader.gives_blanks.bind fun _ _ => ?_
    refine (Reader.gives_many _).bind fun _ _ => Reader.gives_blanks.bind fun _ _ => ?_
    exact (Reader.gives_char _).bind fun _ _ => Reader.gives_pure trivial
  · refine Reader.gives_blanks.bind fun _ _ => (Reader.gives_char _).bind fun _ _ => ?_
    exact gives_staticInitValue.bind fun _ _ => Reader.gives_pure (hf _ _ _)

/-- With or without `const` and type. -/
theorem startsWithin_staticInitWith (useConst useType : Bool) :
    (staticInitWith useConst useType).StartsWithin StaticInitMatch.start := by
  have hconst : ∀ {r : Reader StaticInitMatch}, r.StartsWithin StaticInitMatch.start →
      (do Reader.text "const"; Reader.blanks1; r).StartsWithin StaticInitMatch.start := fun hr =>
    .behind (fun _ => Reader.gives_text _) fun _ =>
      .behind (fun _ => Reader.gives_blanks1) fun _ => hr
  have htyped : ∀ {f : Text × Nat → Nat → Text → Reader StaticInitMatch},
      (∀ t i w I, (f t i w).Gives I fun m => m.start = t.2) →
      (do let t ← staticInitType; let i ← Reader.here; let w ← Reader.many1 isWord
          f t i w).StartsWithin StaticInitMatch.start := by
    intro f hf
    refine startsWithin_staticInitType.bind fun t I => ?_
    exact Reader.gives_here.bind fun i _ => (Reader.gives_many1 _).bind fun w _ => hf t i w I
  cases useConst <;> cases useType <;>
    simp only [staticInitWith, if_true, if_false, Bool.false_eq_true, bind_map_left, pure_bind]
  · exact Reader.startsWithin_here_many1 fun i w I => gives_behindOwner fun _ _ _ => rfl
  · exact htyped fun t i w I => gives_behindOwner fun _ _ _ => rfl
  · exact hconst (Reader.startsWithin_here_many1 fun i w I => gives_behindOwner fun _ _ _ => rfl)
  · exact hconst (htyped fun t i w I => gives_behindOwner fun _ _ _ => rfl)

/-- **The start of a static initializer lies within its match.** -/
theorem startsWithin_staticInit : staticInit.StartsWithin StaticInitMatch.start := by
  refine Reader.StartsWithin.behind (fun _ => Reader.gives_lineStart) fun _ => ?_
  refine Reader.StartsWithin.behind (fun _ => Reader.gives_many _) fun _ => ?_
  exact (startsWithin_staticInitWith _ _).orElse ((startsWithin_staticInitWith _ _).orElse
    ((startsWithin_staticInitWith _ _).orElse (startsWithin_staticInitWith _ _)))

/-- An initializer has the position of its match. -/
theorem position_staticInitOf? {page : SourcePage} {s : SourceScan} {m : StaticInitMatch}
    {x : StaticInit} (h : staticInitOf? page s m = some x) : x.position = m.start := by
  rw [staticInitOf?] at h
  split at h
  · cases h
  · exact (Option.some.inj h) ▸ rfl

/-- **The static initializers of a source file are in the order of its text**, and no two of them
stand at the same place. -/
theorem pairwise_staticInits_parseSource (text path : Text) :
    (parseSource text path).1.staticInits.Pairwise fun x y => x.position < y.position := by
  rw [parseSource]
  dsimp only
  set inits := (staticInit.findAll _).filterMap _ with hinits
  have hpairs : inits.Pairwise fun x y => x.position < y.position := by
    rw [hinits, List.pairwise_filterMap]
    refine (startsWithin_staticInit.pairwise_findFrom 0 0 none _).2.imp fun hlt x hx y hy => ?_
    rw [position_staticInitOf? hx, position_staticInitOf? hy]
    exact hlt
  have hsorted : inits.Pairwise fun x y => decide (x.position ≤ y.position) = true :=
    hpairs.imp fun hlt => decide_eq_true (Nat.le_of_lt hlt)
  rw [List.mergeSort_of_pairwise hsorted]
  exact hpairs

end Sharpen
