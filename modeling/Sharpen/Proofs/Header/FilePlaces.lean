import Mathlib.Data.List.Basic
import Sharpen.Proofs.Header.PureVirtual

/-!
# Places Outside Types

A `#define` outside all types is a constant of the file, and a block outside all types is skipped
with all that is in it. So it matters which lines of a header the reading comes to between the
types. This module says so for the text: the places are listed without the reading, from the page
alone, and the list is shown to be that of the reading.

From a place outside types the reading goes on to the next line, unless a type or a block starts
there. Behind a type it goes on behind the closing brace, the name and the semicolon, behind a block
behind its closing brace, and in both cases on the next line if nothing is left on this one but
blanks and semicolons. What is missing its closing brace takes the rest of the text.

## Main definitions

* `Page.visits` — the places that the reading of a page comes to, with what has been read there.
* `Page.behindItem` — where the text outside types goes on behind what stands at a place.
* `Page.filePlaces` — the places outside types.

## Main results

* `Page.lt_behindItem` — the text goes on at a later place.
* `Page.map_visits_outside` — the reading comes to the places outside types, in their order, and
  outside types to no others.
* `Page.mem_filePlaces_of_lines` — every line up to the first type or block is such a place.
-/

namespace Sharpen

namespace Page

/-! ### Places of the reading -/

/-- The places that a reading comes to from position `pos` on, with what has been read there. -/
def visitsFrom (page : Page) (s : HeaderScan) (pos : Nat) : List (HeaderScan × Nat) :=
  if pos < page.text.length then
    let (s', next) := headerStep page s pos
    (s, pos) :: if pos < next then page.visitsFrom s' next else []
  else []
termination_by page.text.length - pos

/-- The places that the reading of a page comes to. -/
def visits (page : Page) : List (HeaderScan × Nat) :=
  page.visitsFrom page.firstScan 0

/-! ### Places of the text -/

/-- Where the text goes on behind the body of a type that ends at `bodyEnd`. -/
def behindBody (page : Page) (bodyEnd : Nat) : Nat :=
  if bodyEnd < page.text.length then
    page.afterStatement
      (((closeTail.readAt page.masked (bodyEnd + 1)).map Prod.snd).getD (bodyEnd + 1))
  else page.text.length

/-- Where the text outside types goes on behind what stands at position `pos`. -/
def behindItem (page : Page) (pos : Nat) : Nat :=
  match page.fileItem pos with
  | .blank | .constant | .directive | .scope | .code => page.lineEnd pos + 1
  | .head type => page.behindBody (page.bodyEnd type)
  | .block brace =>
    match matchingAt? '\x7b' '\x7d' page.masked brace with
    | none => page.text.length
    | some close => page.afterStatement (close + 1)

/-- The places outside types from position `pos` on. -/
def filePlacesFrom (page : Page) (pos : Nat) : List Nat :=
  if pos < page.text.length then
    pos :: if pos < page.behindItem pos then page.filePlacesFrom (page.behindItem pos) else []
  else []
termination_by page.text.length - pos

/-- **The places outside types**, as the text has them. -/
def filePlaces (page : Page) : List Nat :=
  page.filePlacesFrom 0

variable {page : Page} {s : HeaderScan} {o : OpenType} {pos : Nat}

/-- The text goes on behind the end of a body. -/
theorem lt_behindBody (page : Page) (bodyEnd : Nat) :
    min (bodyEnd + 1) page.text.length ≤ page.behindBody bodyEnd := by
  rw [behindBody]
  split
  · cases htail : closeTail.readAt page.masked (bodyEnd + 1) with
    | none => exact page.le_afterStatement (bodyEnd + 1)
    | some tail =>
        have hlt := closeTail_stop htail
        have hafter := page.le_afterStatement tail.2
        simp only [Option.map_some, Option.getD_some]
        omega
  · exact Nat.min_le_right _ _

/-- The body of a type ends behind its opening brace. -/
theorem lt_bodyEnd (page : Page) (head : TypeHead) :
    min (head.brace + 1) page.text.length ≤ page.bodyEnd head := by
  rw [bodyEnd]
  cases hmatch : matchingAt? '\x7b' '\x7d' page.masked head.brace with
  | none => exact Nat.min_le_right _ _
  | some close =>
      have hlt := (matchingAt?_eq_some hmatch).1
      simp only [Option.getD_some]
      omega

/-- **The text outside types goes on at a later place.** -/
theorem lt_behindItem (hpos : pos < page.text.length) : pos < page.behindItem pos := by
  have hline := page.le_lineEnd pos
  have hstands := page.stands_fileItem pos
  rw [behindItem]
  generalize page.fileItem pos = item at hstands ⊢
  cases hstands with
  | blank | constant | directive | scope | code =>
      show pos < page.lineEnd pos + 1
      omega
  | @head type hcode hhash hhead =>
      have hbrace := (typeHead?_brace hhead).1
      have hend := page.lt_bodyEnd type
      have hbehind := page.lt_behindBody (page.bodyEnd type)
      show pos < page.behindBody (page.bodyEnd type)
      omega
  | block =>
      dsimp only
      split
      · exact hpos
      · rename_i close hmatch
        have hlt := (matchingAt?_eq_some hmatch).1
        have hafter := page.le_afterStatement (close + 1)
        omega

/-- The places outside types are a place and those behind what stands there. -/
theorem filePlacesFrom_eq (hpos : pos < page.text.length) :
    page.filePlacesFrom pos = pos :: page.filePlacesFrom (page.behindItem pos) := by
  rw [filePlacesFrom, if_pos hpos, if_pos (lt_behindItem hpos)]

/-- There is no place behind the end of the text. -/
theorem filePlacesFrom_of_le (hpos : page.text.length ≤ pos) : page.filePlacesFrom pos = [] := by
  rw [filePlacesFrom, if_neg (Nat.not_lt.mpr hpos)]

/-! ### The reading and the text -/

/-- Where the text outside types goes on for a reading: where the reading is, or behind the body of
the open type. -/
def restOutside (page : Page) (s : HeaderScan) (pos : Nat) : Nat :=
  match s.current with
  | none => pos
  | some o => page.behindBody o.bodyEnd

/-- Outside types, the text goes on where the reading is. -/
theorem restOutside_none (hs : s.current = none) : page.restOutside s pos = pos := by
  rw [restOutside, hs]

/-- In a type, the text outside types goes on behind its body. -/
theorem restOutside_some (hs : s.current = some o) :
    page.restOutside s pos = page.behindBody o.bodyEnd := by
  rw [restOutside, hs]

/-- A step outside types leads to where the text goes on, or into a type behind which it does. -/
theorem restOutside_outsideStep (hs : s.current = none) :
    page.restOutside (outsideStep page s pos).1 (outsideStep page s pos).2
      = page.behindItem pos := by
  rw [outsideStep, behindItem]
  cases page.fileItem pos with
  | blank | constant | directive | scope | code => exact restOutside_none hs
  | head type => rfl
  | block brace =>
      dsimp only
      cases matchingAt? '\x7b' '\x7d' page.masked brace with
      | none => exact restOutside_none hs
      | some close => exact restOutside_none hs

/-- Closing a type leads behind its body. -/
theorem restOutside_closeType (hend : o.bodyEnd < page.text.length) :
    page.restOutside (closeType page s o).1 (closeType page s o).2
      = page.behindBody o.bodyEnd := by
  rw [restOutside_none (closeType_advances page s o hend).2, closeType, behindBody, if_pos hend]
  cases closeTail.readAt page.masked (o.bodyEnd + 1) <;> rfl

/-- **Where the text outside types goes on after a step**: behind what stands outside types at this
place, or where it went on before. -/
theorem restOutside_headerStep (h : s.PlacedAt page pos)
    (hpage : page.masked.length = page.text.length) (hpos : pos < page.text.length) :
    page.restOutside (headerStep page s pos).1 (headerStep page s pos).2
      = if s.current.isNone then page.behindItem pos else page.restOutside s pos := by
  rw [headerStep]
  cases hs : s.current with
  | none => exact restOutside_outsideStep hs
  | some o =>
      rw [restOutside_some hs]
      dsimp only [Option.isNone_some]
      by_cases hend : o.bodyEnd ≤ pos
      · rw [if_pos hend]
        exact restOutside_closeType (Nat.lt_of_le_of_lt hend hpos)
      · rw [if_neg hend]
        obtain ⟨⟨o', hs', hend', -⟩, -, -⟩ := insideStep_advances hs
          ((h o hs).1.bodyEnd_le hpage) (Nat.lt_of_not_le hend)
        exact (restOutside_some hs').trans (congrArg page.behindBody hend')

/-- At the end of the text there is no place outside types any more. -/
theorem le_restOutside (h : s.PlacedAt page pos) (hpos : page.text.length ≤ pos) :
    page.text.length ≤ page.restOutside s pos := by
  cases hs : s.current with
  | none => rwa [restOutside_none hs]
  | some o =>
      have hle := (h o hs).2
      rw [restOutside_some hs, behindBody, if_neg (by omega)]

/-- **Outside types, a reading comes to the places that the text has there.** -/
theorem map_visitsFrom_outside (h : s.PlacedAt page pos)
    (hpage : page.masked.length = page.text.length) :
    ((page.visitsFrom s pos).filter fun v => v.1.current.isNone).map Prod.snd
      = page.filePlacesFrom (page.restOutside s pos) := by
  fun_induction visitsFrom page s pos with
  | case1 s pos hpos s' next hstep ih =>
      have hrest := restOutside_headerStep h hpage hpos
      obtain ⟨hlt, hplaced⟩ := h.step hpage hpos
      rw [hstep] at hrest hlt hplaced
      have hplaces := ih hlt hplaced
      dsimp only at hrest
      rw [hrest] at hplaces
      rw [if_pos hlt]
      cases hs : s.current with
      | none =>
          rw [List.filter_cons_of_pos (by simp [hs]), List.map_cons, hplaces, hs,
            restOutside_none hs, filePlacesFrom_eq hpos]
          rfl
      | some o =>
          rw [List.filter_cons_of_neg (by simp [hs]), hplaces, hs]
          rfl
  | case2 s pos hpos =>
      rw [filePlacesFrom_of_le (le_restOutside h (Nat.le_of_not_lt hpos))]
      rfl

/-- **The reading of a page comes to the places outside types**, in their order, and outside types
to no others. -/
theorem map_visits_outside (hpage : page.masked.length = page.text.length) :
    (page.visits.filter fun v => v.1.current.isNone).map Prod.snd = page.filePlaces :=
  map_visitsFrom_outside (fun _ ho => nomatch ho) hpage

/-! ### Lines -/

/-- Whether a position is the start of a line. -/
def IsLineStart (page : Page) (pos : Nat) : Prop :=
  pos = 0 ∨ page.text[pos - 1]? = some '\n'

/-- A line ends at the first newline. -/
theorem lineEnd_le_of_newline {k : Nat} (hle : pos ≤ k) (hk : page.text[k]? = some '\n') :
    page.lineEnd pos ≤ k := by
  have hdrop : (page.text.drop pos)[k - pos]? = some '\n' := by
    rw [List.getElem?_drop, show pos + (k - pos) = k by omega, hk]
  rw [lineEnd, Text.findChar?]
  cases hfind : (page.text.drop pos).findIdx? (· == '\n') with
  | none =>
      have hmem := List.mem_of_getElem? hdrop
      exact absurd (List.findIdx?_eq_none_iff.mp hfind _ hmem) (by decide)
  | some n =>
      obtain ⟨hn, -, hfirst⟩ := List.findIdx?_eq_some_iff_getElem.mp hfind
      simp only [Option.map_some, Option.getD_some]
      by_contra hlt
      obtain ⟨hin, heq⟩ := List.getElem?_eq_some_iff.mp hdrop
      exact hfirst (k - pos) (by omega) (beq_iff_eq.mpr heq)

/-- Behind a line that ends in the text, a line starts. -/
theorem isLineStart_lineEnd (h : page.lineEnd pos < page.text.length) :
    page.IsLineStart (page.lineEnd pos + 1) := by
  refine Or.inr ?_
  rw [Nat.add_sub_cancel, lineEnd] at *
  cases hfind : Text.findChar? page.text '\n' pos with
  | none =>
      rw [hfind] at h
      exact absurd h (Nat.lt_irrefl _)
  | some k => exact (Text.findChar?_eq_some hfind).2

/-- Up to the first type or block, a line behind a line outside types is outside types. -/
theorem mem_filePlacesFrom_of_lines {i : Nat} (hstart : page.IsLineStart pos)
    (hle : pos ≤ i) (hi : page.IsLineStart i) (hlength : i < page.text.length)
    (h : ∀ j, pos ≤ j → j < i → page.IsLineStart j → page.behindItem j = page.lineEnd j + 1) :
    i ∈ page.filePlacesFrom pos := by
  induction hn : i - pos using Nat.strongRecOn generalizing pos with
  | ind n ih =>
      rw [filePlacesFrom_eq (Nat.lt_of_le_of_lt hle hlength)]
      rcases Nat.eq_or_lt_of_le hle with rfl | hlt
      · exact List.mem_cons_self
      · have hnewline : page.text[i - 1]? = some '\n' := by
          rcases hi with rfl | hi
          · exact absurd hlt (Nat.not_lt_zero _)
          · exact hi
        have hend : page.lineEnd pos ≤ i - 1 := lineEnd_le_of_newline (by omega) hnewline
        have hline := page.le_lineEnd pos
        rw [h pos (Nat.le_refl _) hlt hstart]
        refine List.mem_cons_of_mem _ (ih _ ?_ (isLineStart_lineEnd (by omega)) (by omega) ?_ rfl)
        · omega
        · exact fun j hj => h j (by omega)

/-- **Every line up to the first type or block is outside types.** -/
theorem mem_filePlaces_of_lines {i : Nat} (hi : page.IsLineStart i)
    (hlength : i < page.text.length)
    (hheads : ∀ j < i, page.IsLineStart j → ∀ type, page.fileItem j ≠ .head type)
    (hblocks : ∀ j < i, page.IsLineStart j → ∀ brace, page.fileItem j ≠ .block brace) :
    i ∈ page.filePlaces := by
  refine mem_filePlacesFrom_of_lines (Or.inl rfl) (Nat.zero_le i) hi hlength fun j _ hj hstart => ?_
  rw [behindItem]
  cases hitem : page.fileItem j with
  | head type => exact absurd hitem (hheads j hj hstart type)
  | block brace => exact absurd hitem (hblocks j hj hstart brace)
  | blank | constant | directive | scope | code => rfl

end Page

end Sharpen
