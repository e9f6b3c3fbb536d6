import Mathlib.Data.List.Basic
import Mathlib.Data.List.Forall2
import Mathlib.Data.List.Nodup
import Mathlib.Data.List.Perm.Basic
import Sharpen.Proofs.Header.FilePlaces
import Sharpen.Proofs.Header.NextCode
import Sharpen.Proofs.Header.PureVirtual

/-!
# The Constants of a Header

A `#define` in the body of a type makes a constant of that type, one outside all bodies a constant
of the file. This module follows the constants from the lines where they are found to the types that
have them at the end of the reading; which type then takes in those of the file is left to the
module on their owner.

What a place holds is said without the step of the reading: a line defines a constant or it does
not, and what has been read so far only decides whether the line ends with a body and which comments
above it are left. The invariant then goes over the places that there have been, and says of each
body and of the file that they have what was found at theirs.

## Main definitions

* `Page.constantAt?` — the constant that is found at a place of the reading.
* `Page.definedAt?` — the constant that a line outside types defines, by the text alone.
* `Page.fileConstants`, `Page.bodyConstants` — the constants found outside all types, and in a body.
* `HeaderScan.Collected` — the invariant: what has been read holds the constants found so far, each
  in its place.

## Main results

* `HeaderScan.Outside.addsConstants`, `HeaderScan.Inside.addsConstants` — a step adds the constant
  that is found at its place, and nothing else.
* `Page.map_bare_fileConstants` — the constants of the file are those that the lines outside types
  define.
* `HeaderScan.Collected.step`, `HeaderScan.Collected.loop` — a step keeps the invariant, and so does
  the whole reading.
-/

namespace Sharpen

/-! ### What is found at a place -/

/-- The end of the line that a step at `pos` looks at, which ends with the body of the open type. -/
def HeaderScan.lineStop (s : HeaderScan) (page : Page) (pos : Nat) : Nat :=
  match s.current with
  | none => page.lineEnd pos
  | some o => page.lineEndWithin pos o.bodyEnd

/-- The constant that a reading finds at position `pos`: the one that the line there defines, unless
it is in a comment or literal. -/
def Page.constantAt? (page : Page) (s : HeaderScan) (pos : Nat) : Option Constant :=
  let stop := s.lineStop page pos
  let line : Text := page.text.slice pos stop
  if Text.isBlank (page.masked.slice pos stop) then none
  else
    Constant.ofLine? (if s.current.isSome then line.trim else line) page.stem true
      (collectComments page.lines (page.lineOf pos) s.claimed).lines pos

/-- The constant that a line outside types defines, without the comments above it. -/
def Page.definedAt? (page : Page) (pos : Nat) : Option Constant :=
  if Text.isBlank (page.masked.slice pos (page.lineEnd pos)) then none
  else Constant.ofLine? (page.text.slice pos (page.lineEnd pos)) page.stem true [] pos

/-- A constant without its comments. -/
def Constant.bare (c : Constant) : Constant :=
  { c with comments := [] }

section

variable {page : Page} {s : HeaderScan} {o : OpenType} {pos : Nat} {c : Constant}

/-- A constant is found where it says. -/
theorem position_constantAt? (h : page.constantAt? s pos = some c) : c.position = pos := by
  simp only [Page.constantAt?] at h
  split at h
  · cases h
  · rw [Constant.ofLine?, Option.map_eq_some_iff] at h
    obtain ⟨p, -, rfl⟩ := h
    rfl

/-- A line that defines something starts with a hash and the word `define`. -/
theorem exists_of_splitDefine? {line : Text} (h : (splitDefine? line).isSome = true) :
    ∃ r u : Text, line.trimStart = '#' :: r ∧ r.trimStart = ("define" : Text) ++ u := by
  obtain ⟨p, hp⟩ := Option.isSome_iff_exists.mp h
  simp only [splitDefine?, defineHead?, Option.bind_eq_bind, Option.bind_eq_some_iff] at hp
  obtain ⟨-, ⟨r, hhash, u, hdefine, -⟩, -⟩ := hp
  have hafter : ∀ {w t r : Text}, afterText? w t = some r → t = w ++ r := by
    intro w t r h
    rw [afterText?] at h
    split at h
    · rename_i hprefix
      obtain ⟨v, rfl⟩ := List.isPrefixOf_iff_prefix.mp hprefix
      rw [← Option.some.inj h, List.drop_left]
    · cases h
  exact ⟨r, u, hafter hhash, hafter hdefine⟩

/-- It still does when it is trimmed. -/
theorem startsWith_of_splitDefine? {line : Text} (h : (splitDefine? line).isSome = true) :
    line.trim.startsWith "#" = true := by
  obtain ⟨r, -, hhash, -⟩ := exists_of_splitDefine? h
  obtain ⟨v, hv⟩ := Text.exists_trimEnd_append (show isBlank '#' = false by decide) [] r
  rw [Text.trim, hhash]
  rw [List.nil_append] at hv
  rw [hv]
  rfl

/-- A line that starts with no hash defines nothing. -/
theorem splitDefine?_eq_none_of_startsWith {line : Text}
    (h : line.trim.startsWith "#" = false) : splitDefine? line = none := by
  by_contra hne
  have hhash := startsWith_of_splitDefine? (Option.isSome_iff_ne_none.mpr hne)
  rw [h] at hhash
  cases hhash

/-- The marker of a region defines nothing. Behind the hash and the blanks there is the word
`define`, and no word of a marker. -/
theorem splitDefine?_eq_none_of_regionMarker {line : Text} {m : Bool × Text}
    (h : regionMarker.read line = some m) : splitDefine? line = none := by
  by_contra hne
  obtain ⟨r, u, hhash, hdefine⟩ := exists_of_splitDefine? (Option.isSome_iff_ne_none.mpr hne)
  obtain ⟨⟨_, c'⟩, hrun, -⟩ := Option.map_eq_some_iff.mp h
  simp only [regionMarker, StateT.run_bind, Option.bind_eq_bind, Option.bind_eq_some_iff] at hrun
  obtain ⟨⟨_, c₁⟩, h₁, ⟨_, c₂⟩, h₂, ⟨_, c₃⟩, h₃, ⟨_, c₄⟩, h₄, -⟩ := hrun
  have hline : line = '#' :: c₁.rest := (Reader.readsBy_char '#' _ _).mp ⟨_, _, h₁, rfl⟩
  have hrest : c₂.rest = ("define" : Text) ++ u := by
    rw [hline, Text.trimStart_cons_code (by decide)] at hhash
    rw [← hdefine, ← (List.cons.inj hhash).2]
    exact ((Reader.readsBy_blanks _ _).mp ⟨_, _, h₂, rfl⟩).symm
  have hpragma : (do Reader.text "pragma"; Reader.blanks1 : Reader Unit).run c₂ = none := by
    have htext : (Reader.text "pragma").run c₂ = none := by
      change (if _ then _ else _) = _
      rw [hrest]
      rfl
    rw [StateT.run_bind, htext]
    rfl
  have hoption : ∀ {r : Reader Unit} {c : Cursor}, r.run c = none →
      (Reader.option r).run c = some (none, c) := fun hr => by simp [Reader.option, hr]
  obtain ⟨-, rfl⟩ := Prod.mk.inj (Option.some.inj ((hoption hpragma).symm.trans h₃))
  obtain ⟨w, hw, -⟩ := Option.map_eq_some_iff.mp h₄
  rw [hrest] at hw
  cases hw

/-! ### One step -/

/-- What an open type keeps while its body is read. -/
def OpenType.frame (o : OpenType) : Nat × Bool × Text × TypeKind :=
  (o.bodyEnd, o.isTypedef, o.decl.name, o.decl.kind)

/-- What a step leaves that adds at most constants to the open type. -/
def HeaderScan.Extends (s : HeaderScan) (o : OpenType) (cs : List Constant) (s' : HeaderScan) :
    Prop :=
  s'.types = s.types ∧ s'.constants = s.constants ∧ ∃ o', s'.current = some o' ∧
    o'.frame = o.frame ∧ o'.decl.headerConstants = o.decl.headerConstants ++ cs

/-- What is found on a line outside types. -/
theorem constantAt?_outside (hs : s.current = none) :
    page.constantAt? s pos =
      if Text.isBlank (page.masked.slice pos (page.lineEnd pos)) then none
      else Constant.ofLine? (page.text.slice pos (page.lineEnd pos)) page.stem true
        (collectComments page.lines (page.lineOf pos) s.claimed).lines pos := by
  simp [Page.constantAt?, HeaderScan.lineStop, hs]

/-- What is found on a line outside types is what the line defines, whatever has been read so far.
-/
theorem map_bare_constantAt? (hs : s.current = none) :
    (page.constantAt? s pos).map Constant.bare = page.definedAt? pos := by
  rw [constantAt?_outside hs, Page.definedAt?]
  split
  · rfl
  · rw [Constant.ofLine?, Option.map_map]
    rfl

/-- What is found on a line of a body. -/
theorem constantAt?_inside (hs : s.current = some o) :
    page.constantAt? s pos =
      if Text.isBlank (page.masked.slice pos (page.lineEndWithin pos o.bodyEnd)) then none
      else Constant.ofLine? (page.lineWithin pos o.bodyEnd) page.stem true
        (collectComments page.lines (page.lineOf pos) s.claimed).lines pos := by
  simp [Page.constantAt?, HeaderScan.lineStop, hs, Page.lineWithin]

/-- Nothing is found on a line outside types that defines nothing. -/
theorem constantAt?_outside_eq_none (hs : s.current = none)
    (h : splitDefine? (page.text.slice pos (page.lineEnd pos)) = none) :
    page.constantAt? s pos = none := by
  rw [constantAt?_outside hs, Constant.ofLine?, h]
  exact ite_self none

/-- Nor on such a line of a body. -/
theorem constantAt?_inside_eq_none (hs : s.current = some o)
    (h : splitDefine? (page.lineWithin pos o.bodyEnd) = none) :
    page.constantAt? s pos = none := by
  rw [constantAt?_inside hs, Constant.ofLine?, h]
  exact ite_self none

/-- **What a step outside types does**: it adds the constant that it finds to those of the file, and
may open a type. -/
theorem HeaderScan.Outside.addsConstants {s' : HeaderScan} {next : Nat}
    (h : s.Outside page pos s' next) (hs : s.current = none) :
    s'.types = s.types ∧ s'.constants = s.constants ++ (page.constantAt? s pos).toList ∧
      (s'.current = none ∨ ∃ head comments, typeHead? page pos = some head ∧
        next = head.brace + 1 ∧ s'.current = some (page.opened head comments)) := by
  cases h with
  | blank hblank =>
      rw [constantAt?_outside hs, if_pos hblank]
      exact ⟨rfl, (List.append_nil _).symm, Or.inl hs⟩
  | constant hcode =>
      rw [constantAt?_outside hs, hcode]
      exact ⟨rfl, rfl, Or.inl hs⟩
  | ignored hdefine =>
      rw [constantAt?_outside_eq_none hs hdefine]
      exact ⟨rfl, (List.append_nil _).symm, Or.inl hs⟩
  | opens hline hhead =>
      rw [constantAt?_outside_eq_none hs (splitDefine?_eq_none_of_startsWith hline)]
      exact ⟨rfl, (List.append_nil _).symm, Or.inr ⟨_, _, hhead, rfl, rfl⟩⟩
  | passed hline =>
      rw [constantAt?_outside_eq_none hs (splitDefine?_eq_none_of_startsWith hline)]
      exact ⟨rfl, (List.append_nil _).symm, Or.inl hs⟩

/-- The end of a region is no constant. -/
theorem frame_endRegion (o : OpenType) (marker : Text) :
    (o.endRegion marker).frame = o.frame ∧
      (o.endRegion marker).decl.headerConstants = o.decl.headerConstants := by
  rw [OpenType.endRegion]
  split <;> exact ⟨rfl, rfl⟩

/-- **What a step inside a type does**: it adds the constant that it finds to those of the type. -/
theorem HeaderScan.Inside.addsConstants {s' : HeaderScan} {next : Nat}
    (h : s.Inside page o pos next s') (hs : s.current = some o) :
    s.Extends o (page.constantAt? s pos).toList s' := by
  have hplain : Text.startsWith (page.lineWithin pos o.bodyEnd) "#" = false →
      page.constantAt? s pos = none := fun hline =>
    constantAt?_inside_eq_none hs (splitDefine?_eq_none_of_startsWith (by
      rw [Page.lineWithin] at hline ⊢
      rwa [Text.trim_trim]))
  cases h with
  | blank hblank =>
      rw [constantAt?_inside hs, if_pos hblank]
      exact ⟨rfl, rfl, o, hs, rfl, (List.append_nil _).symm⟩
  | regionStart hread =>
      rw [constantAt?_inside_eq_none hs (splitDefine?_eq_none_of_regionMarker hread)]
      exact ⟨rfl, rfl, _, rfl, rfl, (List.append_nil _).symm⟩
  | regionEnd hread =>
      obtain ⟨hframe, hconstants⟩ := frame_endRegion o (regionComment false _)
      rw [constantAt?_inside_eq_none hs (splitDefine?_eq_none_of_regionMarker hread)]
      exact ⟨rfl, rfl, _, rfl, hframe, hconstants.trans (List.append_nil _).symm⟩
  | constant hcode =>
      rw [constantAt?_inside hs, hcode]
      exact ⟨rfl, rfl, _, rfl, rfl, rfl⟩
  | ignored hdefine =>
      rw [constantAt?_inside_eq_none hs hdefine]
      exact ⟨rfl, rfl, o, hs, rfl, (List.append_nil _).symm⟩
  | passed hline =>
      rw [hplain hline]
      exact ⟨rfl, rfl, o, hs, rfl, (List.append_nil _).symm⟩
  | label hline | method hline | member hline =>
      rw [hplain hline]
      exact ⟨rfl, rfl, _, rfl, rfl, (List.append_nil _).symm⟩

end

/-! ### Bodies -/

/-- The places of the braces around a body; the closing one is at the end of the text if it is
missing. -/
structure BodySpan where
  start : Nat
  stop : Nat
deriving DecidableEq, Repr

/-- Whether a position is in the body. -/
def BodySpan.has (b : BodySpan) (i : Nat) : Bool :=
  b.start < i && i < b.stop

namespace Page

/-- Whether a body is that of an open type. -/
def IsBodyOfOpen (page : Page) (b : BodySpan) (o : OpenType) : Prop :=
  ∃ pos head comments, typeHead? page pos = some head ∧ b.start = head.brace ∧
    b.stop = o.bodyEnd ∧ o.frame = (page.opened head comments).frame

/-- Whether a body is that of a finished type: its opening brace is that of the type's head, its
closing brace the one that matches it, and the name of the type stands in the head or behind the
closing brace. -/
def IsBodyOf (page : Page) (b : BodySpan) (d : TypeDecl) : Prop :=
  ∃ pos head, typeHead? page pos = some head ∧ b.start = head.brace ∧
    b.stop = (matchingAt? '\x7b' '\x7d' page.masked b.start).getD page.text.length ∧
    d.kind = kindOfType head.isStruct (page.masked.slice (b.start + 1) b.stop) ∧
    (d.name = head.name ∨ head.isTypedef = true ∧
      ∃ after, closeTail.readAt page.masked (b.stop + 1) = some (d.name, after))

/-- The constants that are found in a body. -/
def bodyConstants (page : Page) (visits : List (HeaderScan × Nat)) (b : BodySpan) :
    List Constant :=
  visits.filterMap fun v => if b.has v.2 then page.constantAt? v.1 v.2 else none

/-- The constants that are found outside all types. -/
def fileConstants (page : Page) (visits : List (HeaderScan × Nat)) : List Constant :=
  visits.filterMap fun v => if v.1.current.isNone then page.constantAt? v.1 v.2 else none

variable {page : Page} {b : BodySpan} {o : OpenType} {d : TypeDecl} {c : Constant}
  {visits : List (HeaderScan × Nat)} {s : HeaderScan} {pos : Nat}

/-- A type keeps its body when it is finished. -/
theorem IsBodyOfOpen.finished (h : page.IsBodyOfOpen b o) {name : Text}
    (hname : o.IsName page name) : page.IsBodyOf b (o.finished name) := by
  obtain ⟨pos, head, comments, hhead, hstart, hstop, hframe⟩ := h
  simp only [OpenType.frame, Prod.mk.injEq] at hframe
  obtain ⟨hend, htypedef, hown, hkind⟩ := hframe
  refine ⟨pos, head, hhead, hstart, ?_, ?_, ?_⟩
  · rw [hstop, hend, hstart]
    rfl
  · rw [hstop, hend, hstart]
    exact hkind
  · rcases hname with rfl | ⟨after, htrue, hread⟩
    · exact Or.inl hown
    · exact Or.inr ⟨htypedef.symm.trans htrue, after, hstop ▸ hread⟩

/-- One more place with what is found there. -/
theorem filterMap_concat (p : HeaderScan × Nat → Bool) :
    ((visits ++ [(s, pos)]).filterMap fun v => if p v then page.constantAt? v.1 v.2 else none) =
      (visits.filterMap fun v => if p v then page.constantAt? v.1 v.2 else none) ++
        if p (s, pos) then (page.constantAt? s pos).toList else [] := by
  rw [List.filterMap_append, List.filterMap_cons, List.filterMap_nil]
  by_cases h : p (s, pos) = true
  · rw [if_pos h, if_pos h]
    cases page.constantAt? s pos <;> rfl
  · rw [if_neg h, if_neg h]

/-- One more place adds what is found there if it is in the body. -/
theorem bodyConstants_concat :
    page.bodyConstants (visits ++ [(s, pos)]) b = page.bodyConstants visits b ++
      if b.has pos then (page.constantAt? s pos).toList else [] :=
  filterMap_concat fun v => b.has v.2

/-- And if it is outside all types, to the constants of the file. -/
theorem fileConstants_concat :
    page.fileConstants (visits ++ [(s, pos)]) = page.fileConstants visits ++
      if s.current.isNone then (page.constantAt? s pos).toList else [] :=
  filterMap_concat fun v => v.1.current.isNone

/-- A constant of a body is found in the body. -/
theorem has_of_mem_bodyConstants (h : c ∈ page.bodyConstants visits b) :
    b.has c.position = true := by
  obtain ⟨v, -, hv⟩ := List.mem_filterMap.mp h
  split at hv
  · rename_i hhas
    rw [position_constantAt? hv]
    exact hhas
  · cases hv

/-- A constant of the file is found at a place outside all types. -/
theorem exists_of_mem_fileConstants (h : c ∈ page.fileConstants visits) :
    ∃ v ∈ visits, v.1.current.isNone = true ∧ c.position = v.2 := by
  obtain ⟨v, hmem, hv⟩ := List.mem_filterMap.mp h
  split at hv
  · rename_i hnone
    exact ⟨v, hmem, hnone, position_constantAt? hv⟩
  · cases hv

/-- **The constants of the file are those that the lines outside types define.** -/
theorem map_bare_fileConstants (hpage : page.masked.length = page.text.length) :
    (page.fileConstants page.visits).map Constant.bare
      = page.filePlaces.filterMap page.definedAt? := by
  rw [← map_visits_outside hpage, List.filterMap_map, List.filterMap_filter, fileConstants,
    List.map_filterMap]
  refine List.filterMap_congr fun v _ => ?_
  cases hs : v.1.current with
  | none => exact map_bare_constantAt? hs
  | some o => rfl

/-- Places in order have their constants in order. -/
theorem pairwise_filterMap_constantAt? (hvisits : visits.Pairwise fun v w => v.2 < w.2)
    (p : HeaderScan × Nat → Bool) :
    (visits.filterMap fun v => if p v then page.constantAt? v.1 v.2 else none).Pairwise
      fun a b => a.position < b.position := by
  refine List.pairwise_filterMap.mpr (hvisits.imp fun hlt a ha b hb => ?_)
  have hposition : ∀ {v : HeaderScan × Nat} {c : Constant},
      (if p v then page.constantAt? v.1 v.2 else none) = some c → c.position = v.2 := by
    intro v c h
    split at h
    · exact position_constantAt? h
    · cases h
  rw [hposition ha, hposition hb]
  exact hlt

end Page

/-! ### The whole reading -/

/-- **The invariant of reading a header**: what has been read up to position `pos` holds the
constants that were found at the places there have been, those in the bodies with the types and all
others with the file. -/
structure HeaderScan.Collected (page : Page) (visits : List (HeaderScan × Nat))
    (bodies : List BodySpan) (s : HeaderScan) (pos : Nat) : Prop where
  before : ∀ v ∈ visits, v.2 < pos
  ordered : visits.Pairwise fun v w => v.2 < w.2
  file : s.constants = page.fileConstants visits
  types : List.Forall₂ (fun b d => page.IsBodyOf b d ∧
    d.headerConstants = page.bodyConstants visits b) bodies s.types
  apart : bodies.Pairwise fun a b => a.stop < b.start
  behind : ∀ b ∈ bodies, b.stop < pos
  outside : ∀ b ∈ bodies, ∀ v ∈ visits, v.1.current.isNone = true → b.has v.2 = false
  current : ∀ o, s.current = some o → ∃ b, page.IsBodyOfOpen b o ∧ b.start < pos ∧
    o.decl.headerConstants = page.bodyConstants visits b ∧ (∀ a ∈ bodies, a.stop < b.start) ∧
    ∀ v ∈ visits, v.1.current.isNone = true → b.has v.2 = false

namespace HeaderScan.Collected

variable {page : Page} {visits : List (HeaderScan × Nat)} {bodies : List BodySpan}
  {s s' : HeaderScan} {pos next : Nat} {o : OpenType} {b : BodySpan}

/-- A body that ends before a place does not have it. -/
theorem has_eq_false (h : s.Collected page visits bodies pos) (hb : b ∈ bodies) :
    b.has pos = false := by
  have hstop := h.behind b hb
  simp only [BodySpan.has, Bool.and_eq_false_iff, decide_eq_false_iff_not]
  omega

/-- What is found at one more place is none of the bodies' that end before it. -/
theorem types_concat (h : s.Collected page visits bodies pos) :
    List.Forall₂ (fun b d => page.IsBodyOf b d ∧
      d.headerConstants = page.bodyConstants (visits ++ [(s, pos)]) b) bodies s.types := by
  refine List.forall₂_iff_get.mpr ⟨h.types.length_eq, fun i hi hi' => ?_⟩
  obtain ⟨hbody, hconstants⟩ := (List.forall₂_iff_get.mp h.types).2 i hi hi'
  refine ⟨hbody, ?_⟩
  rw [hconstants, Page.bodyConstants_concat, h.has_eq_false (List.get_mem bodies ⟨i, hi⟩)]
  exact (List.append_nil _).symm

/-- Going on to the next place with the same finished types. -/
theorem concat (h : s.Collected page visits bodies pos) (hlt : pos < next)
    (htypes : s'.types = s.types)
    (hfile : s'.constants = s.constants ++
      if s.current.isNone then (page.constantAt? s pos).toList else [])
    (hcurrent : ∀ o, s'.current = some o → ∃ b, page.IsBodyOfOpen b o ∧ b.start < next ∧
      o.decl.headerConstants = page.bodyConstants (visits ++ [(s, pos)]) b ∧
      (∀ a ∈ bodies, a.stop < b.start) ∧
      ∀ v ∈ visits ++ [(s, pos)], v.1.current.isNone = true → b.has v.2 = false) :
    s'.Collected page (visits ++ [(s, pos)]) bodies next where
  before := by
    intro v hv
    rcases List.mem_append.mp hv with hv | hv
    · exact Nat.lt_trans (h.before v hv) hlt
    · rw [List.mem_singleton.mp hv]
      exact hlt
  ordered := List.pairwise_append.mpr ⟨h.ordered, List.pairwise_singleton _ _, fun v hv w hw => by
    rw [List.mem_singleton.mp hw]
    exact h.before v hv⟩
  file := by rw [hfile, h.file, Page.fileConstants_concat]
  types := htypes ▸ h.types_concat
  apart := h.apart
  behind := fun b hb => Nat.lt_trans (h.behind b hb) hlt
  outside := by
    intro b hb v hv hnone
    rcases List.mem_append.mp hv with hv | hv
    · exact h.outside b hb v hv hnone
    · rw [List.mem_singleton.mp hv]
      exact h.has_eq_false hb
  current := hcurrent

/-- **Finishing the open type**: its body is one more body, unless the type is dropped. -/
theorem finish (h : s.Collected page visits bodies pos) (hs : s.current = some o)
    {closingName : Text} (hname : closingName = [] ∨ o.IsName page closingName) (hle : pos ≤ next)
    (hend : o.bodyEnd < next) :
    ∃ bodies', (finishType s o closingName).Collected page visits bodies' next := by
  obtain ⟨b, hopen, -, hconstants, hafter, houtside⟩ := h.current o hs
  have hbefore : ∀ v ∈ visits, v.2 < next := fun v hv => Nat.lt_of_lt_of_le (h.before v hv) hle
  have hbehind : ∀ a ∈ bodies, a.stop < next := fun a ha => Nat.lt_of_lt_of_le (h.behind a ha) hle
  have hstop : b.stop = o.bodyEnd := by
    obtain ⟨_, _, _, _, _, hstop, _⟩ := hopen
    exact hstop
  obtain ⟨hfile, hnone, htypes | ⟨name, hname, htypes⟩⟩ := finishType_eq page s hname
  · exact ⟨bodies, hbefore, h.ordered, hfile.trans h.file, htypes ▸ h.types, h.apart, hbehind,
      h.outside, by simp [hnone]⟩
  · refine ⟨bodies ++ [b], hbefore, h.ordered, hfile.trans h.file, ?_, ?_, ?_, ?_, by simp [hnone]⟩
    · rw [htypes]
      exact List.rel_append h.types
        (List.Forall₂.cons ⟨hopen.finished hname, hconstants⟩ List.Forall₂.nil)
    · refine List.pairwise_append.mpr ⟨h.apart, List.pairwise_singleton _ _, fun a ha c hc => ?_⟩
      rw [List.mem_singleton.mp hc]
      exact hafter a ha
    · refine forall_mem_concat hbehind ?_
      rw [hstop]
      exact hend
    · exact forall_mem_concat h.outside houtside

/-- A step outside types keeps the invariant. A body that it opens starts at or behind its place, so
nothing has been found in it yet. -/
theorem outsideStep (h : s.Collected page visits bodies pos) (hs : s.current = none)
    (hlt : pos < (outsideStep page s pos).2) :
    (outsideStep page s pos).1.Collected page (visits ++ [(s, pos)]) bodies
      (outsideStep page s pos).2 := by
  obtain ⟨htypes, hfile, hcurrent⟩ := (outsideStep_outside page s pos).addsConstants hs
  refine h.concat hlt htypes (by rw [hfile, hs]; rfl) fun o ho => ?_
  rcases hcurrent with hnone | ⟨head, comments, hhead, hnext, hopened⟩
  · rw [hnone] at ho
    cases ho
  obtain rfl := Option.some.inj (hopened.symm.trans ho)
  have hle := (typeHead?_brace hhead).1
  let b : BodySpan := ⟨head.brace, (page.opened head comments).bodyEnd⟩
  have hempty : ∀ v ∈ visits ++ [(s, pos)], b.has v.2 = false := by
    refine forall_mem_concat (fun v hv => ?_) ?_
    · have hv := h.before v hv
      simp only [BodySpan.has, Bool.and_eq_false_iff, decide_eq_false_iff_not, b]
      omega
    · simp only [BodySpan.has, Bool.and_eq_false_iff, decide_eq_false_iff_not, b]
      omega
  refine ⟨b, ⟨pos, head, comments, hhead, rfl, rfl, rfl⟩, ?_, ?_, fun a ha => ?_, fun v hv _ => ?_⟩
  · rw [hnext]
    exact Nat.lt_succ_self _
  · have hnil : page.bodyConstants (visits ++ [(s, pos)]) b = [] :=
      List.filterMap_eq_nil_iff.mpr fun v hv => if_neg (by simp [hempty v hv])
    rw [hnil]
    rfl
  · exact Nat.lt_of_lt_of_le (h.behind a ha) hle
  · exact hempty v hv

/-- A step inside the open type keeps the invariant. -/
theorem insideStep (h : s.Collected page visits bodies pos) (hs : s.current = some o)
    (hpos : pos < o.bodyEnd) (hlt : pos < (insideStep page s o pos).2) :
    (insideStep page s o pos).1.Collected page (visits ++ [(s, pos)]) bodies
      (insideStep page s o pos).2 := by
  obtain ⟨htypes, hfile, o', hs', hframe, hconstants⟩ :=
    (insideStep_spec page s o pos).2.addsConstants hs
  refine h.concat hlt htypes (by rw [hfile, hs]; simp) fun o'' ho => ?_
  obtain rfl := Option.some.inj (hs'.symm.trans ho)
  obtain ⟨b, ⟨i, head, comments, hhead, hstart, hstop, hopened⟩, hbegun, hfound, hafter,
    houtside⟩ := h.current o hs
  have hend : o'.bodyEnd = o.bodyEnd := congrArg Prod.fst hframe
  have hhas : b.has pos = true := by
    simp only [BodySpan.has, Bool.and_eq_true, decide_eq_true_eq]
    omega
  refine ⟨b, ⟨i, head, comments, hhead, hstart, hstop.trans hend.symm, hframe.trans hopened⟩,
    Nat.lt_trans hbegun hlt, ?_, hafter, ?_⟩
  · rw [hconstants, hfound, Page.bodyConstants_concat, if_pos hhas]
  · refine forall_mem_concat houtside fun hnone => ?_
    rw [hs] at hnone
    cases hnone

/-- The end of the open type keeps the invariant. -/
theorem closeType (h : s.Collected page visits bodies pos) (hs : s.current = some o)
    (hpos : o.bodyEnd ≤ pos) (hlt : pos < (closeType page s o).2) :
    ∃ bodies', (closeType page s o).1.Collected page (visits ++ [(s, pos)]) bodies'
      (closeType page s o).2 := by
  obtain ⟨b, hopen, hbegun, hfound, hafter, houtside⟩ := h.current o hs
  have hstop : b.stop = o.bodyEnd := by
    obtain ⟨_, _, _, _, _, hstop, _⟩ := hopen
    exact hstop
  have hhas : b.has pos = false := by
    simp only [BodySpan.has, Bool.and_eq_false_iff, decide_eq_false_iff_not]
    omega
  have hvisited :
      s.Collected page (visits ++ [(s, pos)]) bodies (Sharpen.closeType page s o).2 := by
    refine h.concat hlt rfl (by rw [hs]; simp) fun o' ho => ?_
    obtain rfl := Option.some.inj (hs.symm.trans ho)
    refine ⟨b, hopen, Nat.lt_trans hbegun hlt, ?_, hafter, ?_⟩
    · rw [hfound, Page.bodyConstants_concat, hhas]
      exact (List.append_nil _).symm
    · refine forall_mem_concat houtside fun hnone => ?_
      rw [hs] at hnone
      cases hnone
  obtain ⟨closingName, hname, heq, -⟩ := closeType_spec page s o
  rw [heq]
  exact hvisited.finish hs hname (Nat.le_refl _) (Nat.lt_of_le_of_lt hpos hlt)

/-- **Every step keeps the invariant.** -/
theorem step (h : s.Collected page visits bodies pos) (hplaced : s.PlacedAt page pos)
    (hpage : page.masked.length = page.text.length) (hpos : pos < page.text.length) :
    ∃ bodies', (headerStep page s pos).1.Collected page (visits ++ [(s, pos)]) bodies'
      (headerStep page s pos).2 := by
  have hlt := (hplaced.step hpage hpos).1
  rw [headerStep] at hlt ⊢
  split at hlt
  · rename_i hs
    exact ⟨bodies, h.outsideStep hs hlt⟩
  · rename_i o hs
    split at hlt
    · rename_i hend
      rw [if_pos hend]
      exact h.closeType hs hend hlt
    · rename_i hend
      rw [if_neg hend]
      exact ⟨bodies, h.insideStep hs (Nat.lt_of_not_le hend) hlt⟩

/-- **The whole reading keeps the invariant.** -/
theorem loop (h : s.Collected page visits bodies pos) (hplaced : s.PlacedAt page pos)
    (hpage : page.masked.length = page.text.length) :
    ∃ bodies' stop, (headerLoop page s pos).Collected page (visits ++ page.visitsFrom s pos)
      bodies' stop := by
  fun_induction headerLoop page s pos generalizing visits bodies with
  | case1 s pos hpos s' next hstep hlt ih =>
      obtain ⟨bodies', hnext⟩ := h.step hplaced hpage hpos
      have hplaced' := (hplaced.step hpage hpos).2
      rw [hstep] at hnext hplaced'
      obtain ⟨bodies'', stop, hloop⟩ := ih hnext hplaced'
      refine ⟨bodies'', stop, ?_⟩
      rw [Page.visitsFrom, if_pos hpos, hstep]
      dsimp only
      rw [if_pos hlt]
      simpa using hloop
  | case2 s pos hpos s' next hstep hlt =>
      have hmoves := (hplaced.step hpage hpos).1
      rw [hstep] at hmoves
      exact absurd hmoves hlt
  | case3 s pos hpos =>
      rw [Page.visitsFrom, if_neg hpos, List.append_nil]
      exact ⟨bodies, pos, h⟩

/-- A type whose closing brace is missing is finished at the end. -/
theorem finishOpenType (h : s.Collected page visits bodies pos) :
    ∃ bodies' stop, (finishOpenType s).Collected page visits bodies' stop := by
  rw [Sharpen.finishOpenType]
  split
  · exact ⟨bodies, pos, h⟩
  · rename_i o hs
    have hreport : (s.report (.missingBrace o.decl.name)).Collected page visits bodies pos :=
      ⟨h.before, h.ordered, h.file, h.types, h.apart, h.behind, h.outside, h.current⟩
    have hend : o.bodyEnd < max pos (o.bodyEnd + 1) := by omega
    obtain ⟨bodies', hfinished⟩ := hreport.finish hs (Or.inl rfl) (Nat.le_max_left _ _) hend
    exact ⟨bodies', _, hfinished⟩

end HeaderScan.Collected

end Sharpen
