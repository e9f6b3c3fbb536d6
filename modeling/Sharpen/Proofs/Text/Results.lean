import Sharpen.Proofs.Text.LineBreaks
import Sharpen.Source.Construct

/-!
# What Readers Give

A reader moves forward only. So what is known of the place it starts from, if it stays true further
on, is known of every place on its way, and of what it gives there. A statement about a reader is
put together from those about its parts.

A track is what makes a statement go through a sequence of readers: it is about the place, it is
known at the start, and each reader leaves it true behind itself. For the text of a file the track
says that a class of characters covers all that is left of it. What a reader gives is then covered,
too, whatever the text.

## Main definitions

* `Track` — a property of places that stays true further on.
* `Reader.Gives` — what a reader gives on a track; `Gives.bind` chains readers.
* `Track.within` — the places behind which a class has all characters.
* `Track.inside` — the places of a text.

## Main results

* `Gives.findAll`, `Gives.readAt`, `Gives.covers_replaceIn` — the uses of readers.
-/

namespace Sharpen

/-- Going on leaves the rest of the text. -/
theorem Cursor.rest_skip (c : Cursor) (n : Nat) : (c.skip n).rest = c.rest.drop n := by
  induction n generalizing c with
  | zero => rfl
  | succ n ih =>
      rw [Cursor.skip]
      split
      · rename_i hrest
        rw [hrest, List.drop_nil]
      · rename_i x r hrest
        rw [ih, hrest, List.drop_succ_cons]

/-- A property of places that stays true further on in the text. -/
structure Track where
  holds : Cursor → Prop
  skip : ∀ {c : Cursor} (n : Nat), holds c → holds (c.skip n)

namespace Track

/-- All places. -/
def every : Track :=
  ⟨fun _ => True, fun _ _ => trivial⟩

/-- The places behind which a class has all characters. -/
def within (S : LineClass) : Track where
  holds c := S.Covers c.rest
  skip n h := by
    rw [Cursor.rest_skip]
    exact h.subset (List.drop_subset _ _)

/-- The places of a text. -/
def inside (t : Text) : Track where
  holds c := c.rest = t.drop c.position
  skip := by
    intro c n h
    induction n generalizing c with
    | zero => exact h
    | succ n ih =>
        rw [Cursor.skip]
        split
        · exact h
        · rename_i x r hrest
          refine ih ?_
          rw [hrest] at h
          rw [← List.tail_drop, ← h, List.tail_cons]

end Track

namespace Reader

variable {α β : Type} {I : Track} {P Q : α → Prop} {R : β → Prop}

/-- From a place of a track, a reader gives something with the property `P` and stays on the
track. -/
def Gives (r : Reader α) (I : Track) (P : α → Prop) : Prop :=
  ∀ ⦃c : Cursor⦄ ⦃a : α⦄ ⦃c' : Cursor⦄, I.holds c → r.run c = some (a, c') → P a ∧ I.holds c'

namespace Gives

variable {r : Reader α} {k : α → Reader β}

/-- **One reader after the other.** -/
theorem bind (hr : r.Gives I Q) (hk : ∀ a, Q a → (k a).Gives I R) : (r >>= k).Gives I R := by
  intro c b c'' hc hrun
  rw [StateT.run_bind] at hrun
  obtain ⟨⟨a, c'⟩, hfirst, hsecond⟩ := Option.bind_eq_some_iff.mp hrun
  obtain ⟨ha, hc'⟩ := hr hc hfirst
  exact hk a ha hc' hsecond

end Gives

/-- A reader that reads nothing gives its value. -/
theorem gives_pure {a : α} (h : P a) : (pure a : Reader α).Gives I P := by
  intro c b c' hc hrun
  obtain ⟨rfl, rfl⟩ := Prod.mk.inj (Option.some.inj hrun)
  exact ⟨h, hc⟩

/-- A reader that fails gives nothing at all. -/
theorem gives_failure : (failure : Reader α).Gives I P := by
  intro c b c' hc hrun
  cases hrun

/-! ### Parts of readers -/

section

variable (p : Char → Bool)

/-- A character that is read is one that fits. -/
theorem gives_satisfy : (satisfy p).Gives I fun x => p x = true := by
  intro c x c' hc hrun
  simp only [StateT.run, satisfy] at hrun
  split at hrun
  · cases hrun
  · rename_i y t hrest
    split at hrun
    · rename_i hy
      obtain ⟨rfl, rfl⟩ := Prod.mk.inj (Option.some.inj hrun)
      have hskip := I.skip 1 hc
      rw [Cursor.skip, hrest] at hskip
      exact ⟨hy, hskip⟩
    · cases hrun

/-- So are all characters of a run. -/
theorem gives_many : (many p).Gives I fun t => ∀ c ∈ t, p c = true := by
  intro c t c' hc hrun
  obtain ⟨rfl, rfl⟩ := Prod.mk.inj (Option.some.inj hrun)
  exact ⟨List.all_eq_true.mp List.all_takeWhile, I.skip _ hc⟩

/-- A run of characters belongs to what is known of the text behind its place. -/
theorem gives_many_within (S : LineClass) : (many p).Gives (Track.within S) S.Covers := by
  intro c t c' hc hrun
  obtain ⟨rfl, rfl⟩ := Prod.mk.inj (Option.some.inj hrun)
  exact ⟨LineClass.Covers.subset hc (List.takeWhile_prefix _).subset, Track.skip _ _ hc⟩

/-- And those of a run that is not empty. -/
theorem gives_many1 : (many1 p).Gives I fun t => ∀ c ∈ t, p c = true := by
  refine (gives_many p).bind fun t ht => ?_
  split
  · exact gives_failure
  · exact gives_pure ht

end

/-- Reading a certain character keeps the track. -/
theorem gives_char (x : Char) : (char x).Gives I fun _ => True :=
  (gives_satisfy _).bind fun _ _ => gives_pure trivial

/-- So does reading a certain text. -/
theorem gives_text (w : Text) : (text w).Gives I fun _ => True := by
  intro c a c' hc hrun
  simp only [StateT.run, text] at hrun
  split at hrun
  · obtain ⟨-, rfl⟩ := Prod.mk.inj (Option.some.inj hrun)
    exact ⟨trivial, I.skip _ hc⟩
  · cases hrun

/-- A reader that looks around and stays where it is. -/
theorem gives_look {r : Reader Unit} (b : Cursor → Bool)
    (h : ∀ c, r.run c = if b c then none else some ((), c)) : r.Gives I fun _ => True := by
  intro c a c' hc hrun
  rw [h] at hrun
  split at hrun
  · cases hrun
  · obtain ⟨-, rfl⟩ := Prod.mk.inj (Option.some.inj hrun)
    exact ⟨trivial, hc⟩

/-- So does the end of a word. -/
theorem gives_wordEnd : wordEnd.Gives I fun _ => True :=
  gives_look _ fun _ => rfl

/-- So does the start of a word. -/
theorem gives_wordStart : wordStart.Gives I fun _ => True :=
  gives_look _ fun _ => rfl

/-- So does the start of a line. -/
theorem gives_lineStart : lineStart.Gives I fun _ => True := by
  intro c a c' hc hrun
  simp only [StateT.run, lineStart] at hrun
  split at hrun
  · obtain ⟨-, rfl⟩ := Prod.mk.inj (Option.some.inj hrun)
    exact ⟨trivial, hc⟩
  · cases hrun

/-- So do blanks. -/
theorem gives_blanks : blanks.Gives I fun _ => True :=
  (gives_many _).bind fun _ _ => gives_pure trivial

/-- So do blanks of which there is one at least. -/
theorem gives_blanks1 : blanks1.Gives I fun _ => True :=
  (gives_many1 _).bind fun _ _ => gives_pure trivial

/-- So does asking for the place. -/
theorem gives_here : here.Gives I fun _ => True := by
  intro c a c' hc hrun
  obtain ⟨-, rfl⟩ := Prod.mk.inj (Option.some.inj hrun)
  exact ⟨trivial, hc⟩

/-- So does reading one of some texts. -/
theorem gives_oneOf (ws : List Text) : (oneOf ws).Gives I fun _ => True := by
  intro c a c' hc hrun
  obtain ⟨w, -, heq⟩ := Option.map_eq_some_iff.mp hrun
  obtain ⟨-, rfl⟩ := Prod.mk.inj heq
  exact ⟨trivial, I.skip _ hc⟩

/-- So does looking ahead. -/
theorem gives_ahead (p : Char → Bool) : (ahead p).Gives I fun _ => True := by
  intro c a c' hc hrun
  obtain ⟨-, rfl⟩ := Prod.mk.inj (Option.some.inj hrun)
  exact ⟨trivial, hc⟩

/-- A reader that may find nothing keeps the track if the reader does that it tries. -/
theorem Gives.option {r : Reader α} (hr : r.Gives I P) :
    (Reader.option r).Gives I fun _ => True := by
  intro c a c' hc hrun
  refine ⟨trivial, ?_⟩
  cases hfirst : r.run c with
  | none =>
      have hoption : (Reader.option r).run c = some (none, c) := by simp [Reader.option, hfirst]
      obtain ⟨-, rfl⟩ := Prod.mk.inj (Option.some.inj (hoption.symm.trans hrun))
      exact hc
  | some q =>
      have hoption : (Reader.option r).run c = some (some q.1, q.2) := by
        simp [Reader.option, hfirst]
      obtain ⟨-, rfl⟩ := Prod.mk.inj (Option.some.inj (hoption.symm.trans hrun))
      exact (hr hc hfirst).2

/-- One reader where another one fails. -/
theorem Gives.orElse {r r' : Reader α} (hr : r.Gives I P) (hr' : r'.Gives I P) :
    (r <|> r').Gives I P := by
  intro c a c' hc hrun
  change (r.run c <|> r'.run c) = some (a, c') at hrun
  cases hfirst : r.run c with
  | none =>
      rw [hfirst] at hrun
      exact hr' hc hrun
  | some p =>
      rw [hfirst] at hrun
      obtain rfl := Option.some.inj hrun
      exact hr hc hfirst

/-- A changed result is what the change makes of a result. -/
theorem Gives.map {r : Reader α} {f : α → β} (hr : r.Gives I fun a => R (f a)) :
    (f <$> r).Gives I R := by
  rw [map_eq_pure_bind]
  exact hr.bind fun a ha => gives_pure ha

/-- Whether something is there is found out without leaving the track. -/
theorem Gives.present {r : Reader α} (hr : r.Gives I P) :
    (Reader.present r).Gives I fun _ => True :=
  hr.option.map

/-- A reader gives the same wherever its matches are looked for. -/
theorem Gives.behind {r : Reader α} (hr : r.Gives I P) (ks : List Nat) :
    (Reader.behind ks r).Gives I fun p => P p.2 := by
  intro c a c' hc hrun
  obtain ⟨k, -, hk⟩ := List.exists_of_findSome?_eq_some hrun
  obtain ⟨⟨b, c''⟩, hrun', heq⟩ := Option.map_eq_some_iff.mp hk
  obtain ⟨rfl, rfl⟩ := Prod.mk.inj heq
  exact hr (I.skip k hc) hrun'

/-! ### Uses of readers -/

namespace Gives

variable {r : Reader α} {t : Text}

/-- What is read at a place of a text is what the reader gives, if the place is on the track. -/
theorem readAt (hr : r.Gives I P) {i : Nat} {a : α} (hstart : I.holds (Cursor.at t i))
    (h : r.readAt t i = some a) : P a := by
  obtain ⟨⟨b, c⟩, hrun, rfl⟩ := Option.map_eq_some_iff.mp h
  exact (hr hstart hrun).1

/-- What is read of a text that a class covers is what the reader gives of such texts. -/
theorem read {S : LineClass} (hr : r.Gives (Track.within S) P) {a : α} (ht : S.Covers t)
    (h : r.read t = some a) : P a :=
  hr.readAt (show (Track.within S).holds (Cursor.at t 0) from ht) h

/-- The matches in a text that is reached at a place of the track. -/
theorem findFrom (hr : r.Gives I P) {skip position : Nat} {before : Option Char}
    (hstart : I.holds ⟨position, before, t⟩) :
    ∀ a ∈ Reader.findFrom r skip position before t, P a := by
  induction t generalizing skip position before with
  | nil => simp [Reader.findFrom]
  | cons x t ih =>
      have hnext : I.holds ⟨position + 1, some x, t⟩ := I.skip 1 hstart
      intro a ha
      cases skip with
      | succ skip => exact ih hnext a ha
      | zero =>
          rw [Reader.findFrom] at ha
          split at ha
          · rename_i b c hrun
            rcases List.mem_cons.mp ha with rfl | ha
            · exact (hr hstart hrun).1
            · exact ih hnext a ha
          · exact ih hnext a ha

/-- **All matches of a reader.** -/
theorem findAll (hr : r.Gives I P) (hstart : I.holds ⟨0, none, t⟩) : ∀ a ∈ r.findAll t, P a :=
  hr.findFrom hstart

/-- **A text with matches replaced** is covered if it was before and what comes in is. -/
theorem covers_replaceIn {S : LineClass} {new : α → Text}
    (hr : r.Gives (Track.within S) fun a => S.Covers (new a)) (ht : S.Covers t) :
    S.Covers (r.replaceIn new t) := by
  have hfrom : ∀ (skip : Nat) (before : Option Char),
      S.Covers (Reader.replaceFrom r new skip before t) := by
    induction t with
    | nil => simp [Reader.replaceFrom]
    | cons x t ih =>
        obtain ⟨hx, ht'⟩ := LineClass.covers_cons.mp ht
        intro skip before
        have hstart : (Track.within S).holds ⟨0, before, x :: t⟩ := ht
        cases skip with
        | succ skip => exact ih ht' skip _
        | zero =>
            rw [Reader.replaceFrom]
            split
            · rename_i a c hrun
              split
              · exact LineClass.covers_cons.mpr ⟨hx, ih ht' _ _⟩
              · exact LineClass.covers_append.mpr ⟨(hr hstart hrun).1, ih ht' _ _⟩
            · exact LineClass.covers_cons.mpr ⟨hx, ih ht' _ _⟩
  exact hfrom 0 none

end Gives

end Reader

end Sharpen
