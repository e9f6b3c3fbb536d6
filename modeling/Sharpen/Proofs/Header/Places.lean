import Mathlib.Data.List.DropRight
import Sharpen.Header.Scan

/-!
# Places of a Text

Where the search for a character, a bracket or the end of a line or statement leads to. Whatever is
found stands in the text, behind the place it was looked for from; this is what shows that a reading
moves on.

For each of the readers used on a header there is a lemma on how far it leads, and for each search
one on where its result can be. They are stated with the length of the text as a bound, for most
positions may also be the end. Nothing here depends on what is read, only on how far.

## Main definitions

* `Cursor.Leads` — what a reader leaves behind it.

## Main results

* `matchingAt?_eq_some` — a closing bracket stands behind the one it closes.
* `Page.codeStart_lt` — the code of a line starts before the line ends.
* `Page.statementEnd_lt`, `Page.afterStatementWithin_le` — a statement of a body, and what comes
  after it, stay in the body.
* `Page.le_stop_trailingComment` — a comment behind a declaration ends behind it.
-/

namespace Sharpen

/-! ### Readers -/

/-- Going on from one place of a text to another one, which is at least `n` characters further. -/
structure Cursor.Leads (n : Nat) (c c' : Cursor) : Prop where
  le : c.position + n ≤ c'.position
  length : c'.position + c'.rest.length = c.position + c.rest.length

namespace Cursor.Leads

variable {m n : Nat} {c c' c'' : Cursor}

/-- A way and another way behind it make one way. -/
theorem trans (h : c.Leads m c') (h' : c'.Leads n c'') : c.Leads (m + n) c'' :=
  ⟨by have := h.le; have := h'.le; omega, h'.length.trans h.length⟩

/-- One character further. -/
theorem next {x : Char} {r : Text} (h : c.rest = x :: r) :
    c.Leads 1 ⟨c.position + 1, some x, r⟩ := by
  refine ⟨Nat.le_refl _, ?_⟩
  rw [h, List.length_cons]
  dsimp only
  omega

/-- Skipping leads on, or nowhere. -/
theorem skip (c : Cursor) (k : Nat) : c.Leads 0 (c.skip k) := by
  induction k generalizing c with
  | zero => exact ⟨Nat.le_refl _, rfl⟩
  | succ k ih =>
      rw [Cursor.skip]
      split
      · exact ⟨Nat.le_refl _, rfl⟩
      · rename_i x r hrest
        have hall := (next hrest).trans (ih _)
        exact ⟨by have := hall.le; omega, hall.length⟩

/-- A run leads on, or nowhere. -/
theorem many {p : Char → Bool} {run : Text}
    (h : (Reader.many p).run c = some (run, c')) : c.Leads 0 c' := by
  obtain ⟨-, rfl⟩ := Prod.mk.inj (Option.some.inj h)
  exact skip c _

/-- So do blanks. -/
theorem blanks {u : Unit} (h : Reader.blanks.run c = some (u, c')) : c.Leads 0 c' := by
  simp only [Reader.blanks, StateT.run_bind, Option.bind_eq_bind, Option.bind_eq_some_iff] at h
  obtain ⟨⟨run, c₁⟩, hrun, hpure⟩ := h
  obtain ⟨-, rfl⟩ := Prod.mk.inj (Option.some.inj hpure)
  exact many hrun

/-- So does one of some texts. -/
theorem oneOf {ws : List Text} {w : Text} (h : (Reader.oneOf ws).run c = some (w, c')) :
    c.Leads 0 c' := by
  obtain ⟨w', -, heq⟩ := Option.map_eq_some_iff.mp h
  obtain ⟨-, rfl⟩ := Prod.mk.inj heq
  exact skip c _

/-- A character that fits leads on by one. -/
theorem satisfy {p : Char → Bool} {x : Char} (h : (Reader.satisfy p).run c = some (x, c')) :
    c.Leads 1 c' := by
  rw [StateT.run, Reader.satisfy] at h
  split at h
  · cases h
  · rename_i y r hrest
    split at h
    · obtain ⟨-, rfl⟩ := Prod.mk.inj (Option.some.inj h)
      exact next hrest
    · cases h

/-- So does a certain character. -/
theorem char {x : Char} {u : Unit} (h : (Reader.char x).run c = some (u, c')) : c.Leads 1 c' := by
  simp only [Reader.char, StateT.run_bind, Option.bind_eq_bind, Option.bind_eq_some_iff] at h
  obtain ⟨⟨y, c₁⟩, hread, hpure⟩ := h
  obtain ⟨-, rfl⟩ := Prod.mk.inj (Option.some.inj hpure)
  exact satisfy hread

/-- Looking at the next character leads nowhere. -/
theorem notFollowedBy {x : Char} {u : Unit}
    (h : (Reader.notFollowedBy x).run c = some (u, c')) : c' = c := by
  change (if c.rest.head? == some x then none else some ((), c)) = some (u, c') at h
  split at h
  · cases h
  · exact (Prod.mk.inj (Option.some.inj h)).2.symm

end Cursor.Leads

/-- What follows the closing brace of a type ends behind it, in the text. -/
theorem closeTail_stop {t : Text} {i : Nat} {name : Text} {stop : Nat}
    (h : closeTail.readAt t i = some (name, stop)) : i < stop := by
  obtain ⟨⟨⟨name', stop'⟩, c'⟩, hrun, heq⟩ := Option.map_eq_some_iff.mp h
  obtain ⟨rfl, rfl⟩ := Prod.mk.inj heq
  simp only [closeTail, StateT.run_bind, Option.bind_eq_bind, Option.bind_eq_some_iff] at hrun
  obtain ⟨⟨_, c₁⟩, h₁, ⟨_, c₂⟩, h₂, ⟨_, c₃⟩, h₃, ⟨_, c₄⟩, h₄, ⟨_, c₅⟩, h₅, hpure⟩ := hrun
  obtain ⟨rfl, rfl⟩ := Prod.mk.inj (Option.some.inj h₅)
  obtain ⟨hvalue, -⟩ := Prod.mk.inj (Option.some.inj hpure)
  obtain ⟨-, rfl⟩ := Prod.mk.inj hvalue
  have hlead := ((Cursor.Leads.blanks h₁).trans (Cursor.Leads.many h₂)).trans
    ((Cursor.Leads.blanks h₃).trans (Cursor.Leads.char h₄))
  have hle := hlead.le
  change i + 1 ≤ c₄.position at hle
  exact hle

/-- An access label ends behind its start, in the text. -/
theorem accessLabel_stop {t : Text} {visibility : Visibility} {stop : Nat}
    (h : accessLabel.read t = some (visibility, stop)) : 0 < stop ∧ stop ≤ t.length := by
  obtain ⟨⟨⟨visibility', stop'⟩, c'⟩, hrun, heq⟩ := Option.map_eq_some_iff.mp h
  obtain ⟨rfl, rfl⟩ := Prod.mk.inj heq
  simp only [accessLabel, StateT.run_bind, Option.bind_eq_bind, Option.bind_eq_some_iff] at hrun
  obtain ⟨⟨_, c₁⟩, h₁, ⟨_, c₂⟩, h₂, ⟨_, c₃⟩, h₃, ⟨_, c₄⟩, h₄, ⟨_, c₅⟩, h₅, hpure⟩ := hrun
  obtain rfl := Cursor.Leads.notFollowedBy h₄
  obtain ⟨rfl, rfl⟩ := Prod.mk.inj (Option.some.inj h₅)
  obtain ⟨hvalue, -⟩ := Prod.mk.inj (Option.some.inj hpure)
  obtain ⟨-, rfl⟩ := Prod.mk.inj hvalue
  obtain ⟨hle, hlength⟩ := ((Cursor.Leads.oneOf h₁).trans (Cursor.Leads.blanks h₂)).trans
    (Cursor.Leads.char h₃)
  change 0 + 1 ≤ c₄.position at hle
  change c₄.position + c₄.rest.length = 0 + t.length at hlength
  exact ⟨hle, by dsimp only; omega⟩

/-! ### Finding characters and brackets -/

/-- A character that is found stands where it is found. -/
theorem Text.findChar?_eq_some {t : Text} {c : Char} {i k : Nat}
    (h : Text.findChar? t c i = some k) : i ≤ k ∧ t[k]? = some c := by
  obtain ⟨j, hj, rfl⟩ := Option.map_eq_some_iff.mp h
  obtain ⟨hlt, hc, -⟩ := List.findIdx?_eq_some_iff_getElem.mp hj
  refine ⟨Nat.le_add_left _ _, ?_⟩
  rw [Nat.add_comm, ← List.getElem?_drop, List.getElem?_eq_getElem hlt, ← beq_iff_eq.mp hc]

/-- A closing bracket that is found stands where it is found. -/
theorem closeOffset_eq_some {opn close : Char} {inner k : Nat} {t : Text}
    (h : closeOffset opn close inner t = some k) : t[k]? = some close := by
  induction t generalizing inner k with
  | nil => cases h
  | cons c r ih =>
      have hlater : ∀ {inner : Nat}, (closeOffset opn close inner r).map (· + 1) = some k →
          (c :: r)[k]? = some close := by
        intro inner hmap
        obtain ⟨j, hj, rfl⟩ := Option.map_eq_some_iff.mp hmap
        exact ih hj
      unfold closeOffset at h
      split at h
      · exact hlater h
      split at h
      · rename_i hclose
        split at h
        · obtain rfl := Option.some.inj h
          exact congrArg some (beq_iff_eq.mp hclose)
        · exact hlater h
      · exact hlater h

/-- The bracket that closes another one stands behind it. -/
theorem matchingAt?_eq_some {opn close : Char} {t : Text} {i k : Nat}
    (h : matchingAt? opn close t i = some k) : i < k ∧ t[k]? = some close := by
  obtain ⟨j, hj, rfl⟩ := Option.map_eq_some_iff.mp h
  have hclose := closeOffset_eq_some hj
  rw [List.getElem?_drop, Nat.add_comm] at hclose
  exact ⟨by omega, hclose⟩

/-- Where an opening bracket stands, the one that closes it can be looked for. -/
theorem findMatching?_eq_ok {t : Text} {i : Nat} {opn close : Char} (hopn : t[i]? = some opn)
    (hclose : closingBracket opn = some close) :
    findMatching? t i = .ok (matchingAt? opn close t i) := by
  simp only [findMatching?, hopn, hclose]

/-- Where a text holds an opening bracket, the first one of them can be looked up. -/
theorem getElem?_findIdx?_eq {t : Text} {c : Char} {i : Nat} (h : t.findIdx? (· == c) = some i) :
    t[i]? = some c := by
  obtain ⟨hlt, hc, -⟩ := List.findIdx?_eq_some_iff_getElem.mp h
  rw [List.getElem?_eq_getElem hlt, beq_iff_eq.mp hc]

/-! ### Going on in a text -/

/-- There is nothing between two positions unless the first is before the second and in the text. -/
theorem Text.slice_eq_nil {t : Text} {i j : Nat} (h : min j t.length ≤ i) : t.slice i j = [] := by
  rw [Text.slice, List.drop_eq_nil_iff, List.length_take]
  exact h

/-- What is between two positions, from a later position on. -/
theorem Text.slice_add (t : Text) (i k j : Nat) : t.slice (i + k) j = (t.slice i j).drop k := by
  rw [Text.slice, Text.slice, List.drop_drop]

/-- A statement ends in the text it is looked for. -/
theorem statementOffset?_lt {parens braces : Int} {t : Text} {k : Nat}
    (h : statementOffset? parens braces t = some k) : k < t.length := by
  induction t generalizing parens braces k with
  | nil => cases h
  | cons c r ih =>
      have hlater : ∀ {parens braces : Int},
          (statementOffset? parens braces r).map (· + 1) = some k → k < (c :: r).length := by
        intro parens braces hmap
        obtain ⟨j, hj, rfl⟩ := Option.map_eq_some_iff.mp hmap
        exact Nat.succ_lt_succ (ih hj)
      rw [statementOffset?] at h
      split at h
      · exact hlater h
      split at h
      · exact hlater h
      split at h
      · exact hlater h
      split at h
      · split at h
        · obtain rfl := Option.some.inj h
          exact Nat.succ_pos _
        · exact hlater h
      split at h
      · obtain rfl := Option.some.inj h
        exact Nat.succ_pos _
      · exact hlater h

/-- Nothing is left of a text only if it is blank. The first character that is left would not be
blank. -/
theorem Text.trim_isEmpty (t : Text) : t.trim.isEmpty = t.isBlank := by
  rw [Bool.eq_iff_iff, List.isEmpty_iff, Text.isBlank, List.all_eq_true, Text.trim, Text.trimEnd,
    Text.dropEndWhile, List.reverse_eq_nil_iff, List.dropWhile_eq_nil_iff]
  simp only [List.mem_reverse]
  refine ⟨fun h => ?_, fun h c hc => h c ((List.dropWhile_sublist _).mem hc)⟩
  refine List.dropWhile_eq_nil_iff.mp ?_
  cases hleft : t.dropWhile Sharpen.isBlank with
  | nil => rfl
  | cons c r =>
      have hblank : Sharpen.isBlank c = true := h c (by rw [Text.trimStart, hleft]; simp)
      have hnot := List.head?_dropWhile_not Sharpen.isBlank t
      simp [hleft, hblank] at hnot

namespace Page

variable (page : Page) (i : Nat)

/-- Lines end in the text. -/
theorem lineEnd_le : page.lineEnd i ≤ page.text.length := by
  rw [lineEnd, Text.findChar?]
  cases hfind : (page.text.drop i).findIdx? (· == '\n') with
  | none => simp
  | some k =>
      obtain ⟨hlt, -⟩ := List.findIdx?_eq_some_iff_getElem.mp hfind
      simp only [List.length_drop] at hlt
      simp only [Option.map_some, Option.getD_some]
      omega

/-- A line does not end before any of its positions. -/
theorem le_lineEnd : min i page.text.length ≤ page.lineEnd i := by
  rw [lineEnd, Text.findChar?]
  cases (page.text.drop i).findIdx? (· == '\n') with
  | none => exact Nat.min_le_right i _
  | some k =>
      simp only [Option.map_some, Option.getD_some]
      omega

/-- What comes after a statement is not before its end. -/
theorem le_afterStatementWithin (limit : Nat) :
    min (min i page.text.length) limit ≤ page.afterStatementWithin i limit := by
  have hline := page.le_lineEnd i
  have hnext : page.lineEndWithin i limit ≤ nextLine (page.lineEndWithin i limit) limit := by
    rw [nextLine]
    split
    · exact Nat.le_succ _
    · exact Nat.min_le_right _ _
  rw [afterStatementWithin]
  by_cases hrest : isStatementRest (page.masked.slice i (page.lineEndWithin i limit)) = true
  · rw [if_pos hrest]
    refine Nat.le_trans ?_ hnext
    rw [lineEndWithin]
    omega
  · rw [if_neg hrest]
    omega

/-- A statement does not end before its start. -/
theorem le_statementEnd {limit : Nat} (h : i < limit) : i ≤ page.statementEnd i limit := by
  rw [statementEnd]
  cases statementOffset? 0 0 (page.masked.slice i limit) with
  | none =>
      simp only [Option.map_none, Option.getD_none]
      omega
  | some k => simp

/-- What comes after the statement that starts on a line is behind its start. -/
theorem lt_afterStatementWithin {start limit : Nat} (h : start < page.lineEndWithin i limit) :
    start < page.afterStatementWithin (page.statementEnd start limit + 1) limit := by
  have htext := page.lineEnd_le i
  have hafter := page.le_afterStatementWithin (page.statementEnd start limit + 1) limit
  rw [lineEndWithin] at h
  have hstop := page.le_statementEnd start (show start < limit by omega)
  omega

/-- The code of a line starts before the line ends, unless there is none. -/
theorem codeStart_lt {stop : Nat} (hcode : (Text.trim (page.masked.slice i stop)).isEmpty = false) :
    i + ((page.masked.slice i stop).length
      - (Text.trimStart (page.masked.slice i stop)).length) < stop := by
  have hlength : (page.masked.slice i stop).length ≤ stop - i := by
    rw [Text.slice, List.length_drop, List.length_take]
    omega
  have htrim : (Text.trimStart (page.masked.slice i stop)).length
      ≤ (page.masked.slice i stop).length :=
    (List.dropWhile_suffix _).length_le
  have hne : 0 < (Text.trimStart (page.masked.slice i stop)).length := by
    rw [List.length_pos_iff]
    intro hnil
    rw [Text.trim, hnil] at hcode
    cases hcode
  omega

variable (limit : Nat)

/-- A statement ends before the limit. -/
theorem statementEnd_lt (h : i < limit) : page.statementEnd i limit < limit := by
  rw [statementEnd]
  cases hoffset : statementOffset? 0 0 (page.masked.slice i limit) with
  | none =>
      simp only [Option.map_none, Option.getD_none]
      omega
  | some k =>
      have hlt := statementOffset?_lt hoffset
      rw [Text.slice, List.length_drop, List.length_take] at hlt
      simp only [Option.map_some, Option.getD_some]
      omega

/-- The next line starts at the limit at the latest. -/
theorem nextLine_le (lineEnd : Nat) : nextLine lineEnd limit ≤ limit := by
  rw [nextLine]
  split <;> omega

/-- What comes after a statement is not behind the limit, wherever the statement ends. Behind the
limit there would be nothing left on the line. -/
theorem afterStatementWithin_le : page.afterStatementWithin i limit ≤ limit := by
  rw [afterStatementWithin]
  split
  · exact nextLine_le limit _
  · rename_i hrest
    by_contra hlt
    refine hrest ?_
    have hnil : page.masked.slice i (page.lineEndWithin i limit) = [] :=
      Text.slice_eq_nil (by rw [lineEndWithin]; omega)
    rw [hnil]
    rfl

/-- What comes after a statement outside types is not before its end. -/
theorem le_afterStatement : min i page.text.length ≤ page.afterStatement i := by
  have hline := page.le_lineEnd i
  rw [afterStatement]
  split <;> omega

/-- The code of a line ends before the line does. -/
theorem codeEnd_le (stop : Nat) :
    i + ((page.masked.slice i stop).length - (Text.trimStart (page.masked.slice i stop)).length)
      + (Text.trim (page.masked.slice i stop)).length ≤ max i stop := by
  have hlength : (page.masked.slice i stop).length ≤ stop - i := by
    rw [Text.slice, List.length_drop, List.length_take]
    omega
  have hstart : (Text.trimStart (page.masked.slice i stop)).length
      ≤ (page.masked.slice i stop).length :=
    (List.dropWhile_suffix _).length_le
  have htrim : (Text.trim (page.masked.slice i stop)).length
      ≤ (Text.trimStart (page.masked.slice i stop)).length := by
    simpa [Text.trim, Text.trimEnd, Text.dropEndWhile] using (List.dropWhile_suffix
      (l := (Text.trimStart (page.masked.slice i stop)).reverse) isBlank).length_le
  omega

/-- A comment behind a declaration ends behind it. -/
theorem le_stop_trailingComment :
    min i page.text.length ≤ (trailingComment page i).stop := by
  have hline := page.le_lineEnd i
  simp only [trailingComment]
  split
  · exact hline
  split
  · dsimp only
    cases hfind : Text.findFrom? page.text "*/"
      (i + ((page.text.slice i (page.lineEnd i)).length
        - (Text.trimStart (page.text.slice i (page.lineEnd i))).length) + 2) with
    | none => exact Nat.min_le_right _ _
    | some k =>
        obtain ⟨j, -, rfl⟩ := Option.map_eq_some_iff.mp hfind
        simp only [Option.map_some, Option.getD_some]
        omega
  · exact Nat.min_le_left _ _

end Page

end Sharpen
