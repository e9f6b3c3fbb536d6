import Sharpen.Proofs.Source.Tidy

/-!
# Running Readers

What a reader gives in front of a text that is known, and where it goes on from. A statement about a
reader that succeeds is put together from those about its parts, in their order; a reader that fails
is shown to by the part that does.

These lemmas run forward: from a text that begins in a known way to the value and the rest. The
other direction, from a value to the text that was read, is not needed for a text that is given.
Readers that fail are shown to by what is missing, which for a search means that nothing is found
before the match.

## Main definitions

* `Reader.Reads` — what a reader gives at a position; `Reads.bind` chains readers.
* `Reader.NeedsText` — a reader that fails at the end of the text, and so matches before it.
-/

namespace Sharpen

namespace Reader

variable {α β : Type}

/-- At position `i`, in front of the text `t`, a reader gives `a` and goes on from position `j`, in
front of the text `u`. -/
def Reads (r : Reader α) (i : Nat) (t : Text) (a : α) (j : Nat) (u : Text) : Prop :=
  ∀ ⦃c : Cursor⦄, c.position = i → c.rest = t →
    ∃ c', r.run c = some (a, c') ∧ c'.position = j ∧ c'.rest = u

namespace Reads

variable {r : Reader α} {k : α → Reader β} {i j l : Nat} {t u v : Text} {a : α} {b : β}

/-- **One reader after the other.** -/
theorem bind (hr : r.Reads i t a j u) (hk : (k a).Reads j u b l v) : (r >>= k).Reads i t b l v := by
  intro c hposition hrest
  obtain ⟨c', hrun, hposition', hrest'⟩ := hr hposition hrest
  obtain ⟨c'', hrun', hend⟩ := hk hposition' hrest'
  refine ⟨c'', ?_, hend⟩
  rw [StateT.run_bind, hrun]
  exact hrun'

/-- A reader that may find nothing finds what the reader does that it tries. -/
theorem option (hr : r.Reads i t a j u) : (Reader.option r).Reads i t (some a) j u := by
  intro c hposition hrest
  obtain ⟨c', hrun, hend⟩ := hr hposition hrest
  exact ⟨c', by simp [Reader.option, hrun], hend⟩

/-- What is tried behind no characters at all. -/
theorem behind (hr : r.Reads i t a j u) : (Reader.behind [0] r).Reads i t (0, a) j u := by
  intro c hposition hrest
  obtain ⟨c', hrun, hend⟩ := hr hposition hrest
  refine ⟨c', ?_, hend⟩
  have hskip : c.skip 0 = c := rfl
  simp [StateT.run, Reader.behind, hskip, show r c = some (a, c') from hrun]

/-- A reader that reads at the start of a line, at the start of the text. -/
theorem lineStart {k : Unit → Reader β} (hk : (k ()).Reads 0 t b j u) :
    ∃ c, (Reader.lineStart >>= k).run ⟨0, none, t⟩ = some (b, c) := by
  obtain ⟨c, hrun, -⟩ := hk (c := ⟨0, none, t⟩) rfl rfl
  exact ⟨c, hrun⟩

end Reads

/-! ### Parts of readers -/

section

variable {i : Nat} {t u : Text}

/-- A reader that reads nothing stays where it is. -/
theorem reads_pure (a : α) : (pure a : Reader α).Reads i t a i t :=
  fun c hposition hrest => ⟨c, rfl, hposition, hrest⟩

/-- Asking for the place gives the place. -/
theorem reads_here : here.Reads i t i i t := by
  intro c hposition hrest
  exact ⟨c, by rw [← hposition]; rfl, hposition, hrest⟩

/-- Looking ahead gives the run of characters that fit, and stays where it is. -/
theorem reads_ahead (p : Char → Bool) : (ahead p).Reads i t (t.takeWhile p) i t := by
  intro c hposition hrest
  exact ⟨c, by rw [← hrest]; rfl, hposition, hrest⟩

variable {p : Char → Bool} (ht : ∀ c ∈ t, p c = true) (hu : u.head?.any p = false)

include ht hu

/-- A run of characters ends where another one follows. -/
theorem reads_many : (many p).Reads i (t ++ u) t (i + t.length) u := by
  intro c hposition hrest
  have hrun : c.rest.takeWhile p = t := by
    rw [hrest, List.takeWhile_append_of_pos ht]
    cases u with
    | nil => rw [List.takeWhile_nil, List.append_nil]
    | cons x u =>
        have hx : p x = false := hu
        rw [List.takeWhile_cons_of_neg (by simp [hx]), List.append_nil]
  refine ⟨c.skip t.length, ?_, ?_, ?_⟩
  · simp [StateT.run, many, hrun]
  · rw [Cursor.position_skip (by simp [hrest]), hposition]
  · rw [Cursor.rest_skip, hrest, List.drop_left]

/-- A run that is not empty is read to its end. -/
theorem reads_many1 (hne : t ≠ []) : (many1 p).Reads i (t ++ u) t (i + t.length) u := by
  refine (reads_many ht hu).bind ?_
  have hempty : t.isEmpty = false := by simpa using hne
  rw [hempty]
  exact reads_pure t

end

section

variable {i : Nat} {t : Text}

/-- Blanks in front of something else are read to the end. -/
theorem reads_blanks (gap : Text) (hgap : gap.isBlank = true)
    (ht : t.head?.any isBlank = false) : blanks.Reads i (gap ++ t) () (i + gap.length) t :=
  (reads_many (List.all_eq_true.mp hgap) ht).bind (reads_pure ())

/-- A certain text is read where it stands. -/
theorem reads_text (w : Text) : (text w).Reads i (w ++ t) () (i + w.length) t := by
  intro c hposition hrest
  have hprefix : w.isPrefixOf c.rest = true := by
    rw [hrest, List.isPrefixOf_iff_prefix]
    exact List.prefix_append w t
  refine ⟨c.skip w.length, ?_, ?_, ?_⟩
  · simp [StateT.run, text, hprefix]
  · rw [Cursor.position_skip (by simp [hrest]), hposition]
  · rw [Cursor.rest_skip, hrest, List.drop_left]

/-- So is a certain character. -/
theorem reads_char (x : Char) : (char x).Reads i (x :: t) () (i + 1) t := by
  intro c hposition hrest
  refine ⟨⟨c.position + 1, some x, t⟩, ?_, by rw [hposition], rfl⟩
  simp [char, satisfy, StateT.run, bind, StateT.bind, hrest]
  rfl

/-- What is not there and may be missing is not read. -/
theorem option_eq_none {r : Reader α} {c : Cursor} (h : r.run c = none) :
    (option r).run c = some (none, c) := by
  simp [option, h]

/-- What is not there is found to be missing. -/
theorem reads_option_none {r : Reader α} (h : ∀ c : Cursor, c.rest = t → r.run c = none) :
    (option r).Reads i t none i t := by
  intro c hposition hrest
  exact ⟨c, option_eq_none (h c hrest), hposition, hrest⟩

/-- And its absence is seen. -/
theorem reads_present_none {r : Reader α} (h : ∀ c : Cursor, c.rest = t → r.run c = none) :
    (present r).Reads i t false i t := by
  rw [present, map_eq_pure_bind]
  exact (reads_option_none h).bind (reads_pure false)

end

/-! ### Readers that need text -/

/-- A reader fails at the end of a text. -/
def NeedsText (r : Reader α) : Prop :=
  ∀ c : Cursor, c.rest = [] → r.run c = none

/-- A run that is not empty needs text. -/
theorem needsText_many1 (p : Char → Bool) : (many1 p).NeedsText := by
  intro c hrest
  have hmany : (many p).run c = some ([], c) := by simp [StateT.run, many, hrest, Cursor.skip]
  simp only [many1, StateT.run_bind, hmany]
  rfl

namespace NeedsText

variable {r : Reader α} {k : α → Reader β}

/-- A reader needs text if its first part does. -/
theorem bind (h : r.NeedsText) : (r >>= k).NeedsText := by
  intro c hrest
  rw [StateT.run_bind, h c hrest]
  rfl

/-- Asking for the place needs none itself. -/
theorem here_bind {k : Nat → Reader β} (h : ∀ i, (k i).NeedsText) : (here >>= k).NeedsText :=
  fun c hrest => h c.position c hrest

/-- Nor does looking ahead. -/
theorem ahead_bind {p : Char → Bool} {k : Text → Reader β} (h : ∀ t, (k t).NeedsText) :
    (ahead p >>= k).NeedsText :=
  fun c hrest => h (c.rest.takeWhile p) c hrest

/-- A reader needs the same wherever its matches are looked for. -/
theorem behind (h : r.NeedsText) (ks : List Nat) : (Reader.behind ks r).NeedsText := by
  intro c hrest
  have hrun : ∀ n, r.run (c.skip n) = none := fun n =>
    h _ (by rw [Cursor.rest_skip, hrest, List.drop_nil])
  exact List.findSome?_eq_none_iff.mpr fun n _ => by rw [hrun n]; rfl

end NeedsText

/-- The position of a reader that needs text is one of the text. -/
theorem gives_here_of_needsText {P : β → Prop} (t : Text) {k : Nat → Reader β}
    (hneeds : ∀ i, (k i).NeedsText)
    (hk : ∀ i, i < t.length → (k i).Gives (Track.inside t) P) :
    (here >>= k).Gives (Track.inside t) P := by
  intro c b c' hc hrun
  have hlt : c.position < t.length := by
    rw [← Nat.not_le, ← List.drop_eq_nil_iff, ← show c.rest = t.drop c.position from hc]
    intro hnil
    have hnone := hneeds c.position c hnil
    rw [show (k c.position).run c = some (b, c') from hrun] at hnone
    cases hnone
  exact hk c.position hlt hc hrun

/-! ### Names and keywords -/

/-- One of some texts that is read is one of them, stands there, and is passed. -/
theorem oneOf_eq_some {ws : List Text} {c c' : Cursor} {w : Text}
    (h : (oneOf ws).run c = some (w, c')) :
    w ∈ ws ∧ w <+: c.rest ∧ c'.rest = c.rest.drop w.length := by
  obtain ⟨w', hfind, heq⟩ := Option.map_eq_some_iff.mp h
  obtain ⟨rfl, rfl⟩ := Prod.mk.inj heq
  have hprefix : w'.isPrefixOf c.rest = true :=
    List.find?_some (p := fun w : Text => w.isPrefixOf c.rest) hfind
  exact ⟨List.mem_of_find?_eq_some hfind, List.isPrefixOf_iff_prefix.mp hprefix,
    Cursor.rest_skip _ _⟩

/-- Where something else follows there are no blanks to read. -/
theorem blanks1_eq_none {c : Cursor} {x : Char} {u : Text} (hc : c.rest = x :: u)
    (hx : isBlank x = false) : blanks1.run c = none := by
  have hmany : (many isBlank).run c = some ([], c) := by
    simp [StateT.run, many, hc, hx, Cursor.skip]
  simp only [blanks1, many1, StateT.run_bind, hmany]
  rfl

end Reader

end Sharpen
