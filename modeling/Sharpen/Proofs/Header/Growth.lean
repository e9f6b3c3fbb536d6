import Mathlib.Data.List.Basic
import Sharpen.Proofs.Header.Advance

/-!
# How Types Grow

Everything that a type of a header has was put there by one step of the reading: its head opens it,
labels, directives, methods and members are added one by one, and its end gives it its name. This
module says of every addition which place of the page its texts come from. What holds of an opened
type and survives every addition therefore holds of all types of the header.

A property of types is kept if it holds of every type that is opened and survives every kind of
addition. The kinds are few and the same for all properties, so that each property is proved by
going through them once. What the reading has come to is then said of any place of it, and in
particular of the finished header.

## Main definitions

* `Page.HasComment` — comments that are taken from the lines of a page.
* `OpenType.Grows` — what one step adds to an open type.
* `HeaderScan.Moves` — what one step does to a reading; `moves_headerStep` shows that it does no
  more.
* `Page.Keeps` — a property of open types that no step takes away.
* `HeaderScan.Kept` — what a reading has come to if a property is kept: the open type has it, and
  every finished type comes from an open one that had it.

## Main results

* `Page.Keeps.forall_types` — every type of the header comes from an open one with the property.
* `HeaderScan.Inside.grows` — a step inside a type leaves it open, as it is or grown, and leaves all
  else.
* `OpenType.endRegion_eq` — the end of a region changes the last method or the last member of a type
  and nothing else: what no marker takes away stays.
-/

namespace Sharpen

/-! ### One step -/

/-- Comment lines that can be taken from a page. -/
def Page.HasComment (page : Page) (comments : List Text) : Prop :=
  ∃ line claimed, comments = (collectComments page.lines line claimed).lines

/-- **What one step adds to an open type**, from position `pos` of its body. -/
inductive OpenType.Grows (page : Page) (pos : Nat) (o : OpenType) : OpenType → Prop
  | label (visibility : Visibility) : o.Grows page pos { o with visibility := visibility }
  | regionStart {name : Text}
      (hread : regionMarker.read (page.lineWithin pos o.bodyEnd) = some (true, name)) :
      o.Grows page pos { o with pendingRegion := regionComment true name }
  | regionEnd {name : Text}
      (hread : regionMarker.read (page.lineWithin pos o.bodyEnd) = some (false, name)) :
      o.Grows page pos (o.endRegion (regionComment false name))
  | constant {comments : List Text} (hcomments : page.HasComment comments) :
      o.Grows page pos { o with
        decl.headerConstants := o.decl.headerConstants ++
          (Constant.ofLine? (page.lineWithin pos o.bodyEnd) page.stem true comments pos).toList }
  | method {start order : Nat} {comments : List Text} {m : Method} (hpos : pos ≤ start)
      (hstart : start < o.bodyEnd) (hcomments : page.HasComment comments)
      (hread : methodDecl page.stem o.decl.name o.visibility start
        (page.masked.slice start (page.statementEnd start o.bodyEnd + 1))
        (page.text.slice start (page.statementEnd start o.bodyEnd + 1)) = .method m) :
      o.Grows page pos (o.addMethod { m with order := order, headerComments := comments })
  | member {start semicolon order : Nat} {comments : List Text} {m : Member}
      (hcomments : page.HasComment comments)
      (hread : memberDecl? o.visibility (memberCode (page.text.slice start (semicolon + 1)))
        = some m) :
      o.Grows page pos (o.addMember { m with
        order := order
        comments := comments
        trailingComment := (trailingComment page (semicolon + 1)).text })

/-- **What one step does to a reading** at position `pos`, which it moves to `next`. -/
inductive HeaderScan.Moves (page : Page) (s : HeaderScan) (pos : Nat) (s' : HeaderScan)
    (next : Nat) : Prop
  | stays (htypes : s'.types = s.types) (hconstants : s'.constants = s.constants)
      (hcurrent : s'.current = s.current)
  | constant {comments : List Text} (hcomments : page.HasComment comments)
      (htypes : s'.types = s.types)
      (hconstants : s'.constants = s.constants ++ (Constant.ofLine?
        (page.text.slice pos (page.lineEnd pos)) page.stem true comments pos).toList)
      (hcurrent : s'.current = s.current)
  | opens {head : TypeHead} {comments : List Text} (hcomments : page.HasComment comments)
      (hhead : typeHead? page pos = some head) (hnext : next = head.brace + 1)
      (htypes : s'.types = s.types) (hconstants : s'.constants = s.constants)
      (hcurrent : s'.current = some (page.opened head comments))
  | grows {o o' : OpenType} (hs : s.current = some o) (hpos : pos < o.bodyEnd)
      (hgrows : o.Grows page pos o') (htypes : s'.types = s.types)
      (hconstants : s'.constants = s.constants) (hcurrent : s'.current = some o')
  | drops (htypes : s'.types = s.types) (hconstants : s'.constants = s.constants)
      (hcurrent : s'.current = none)
  | closes {o : OpenType} {name : Text} (hs : s.current = some o) (hname : o.IsName page name)
      (htypes : s'.types = s.types ++ [o.finished name])
      (hconstants : s'.constants = s.constants) (hcurrent : s'.current = none)

section

variable {page : Page} {s : HeaderScan} {o : OpenType} {pos : Nat}

/-- **A step inside a type** leaves it open, as it is or grown, and leaves all else. -/
theorem HeaderScan.Inside.grows {s' : HeaderScan} {next : Nat}
    (h : s.Inside page o pos next s') (hs : s.current = some o) :
    s'.types = s.types ∧ s'.constants = s.constants ∧
      ∃ o', s'.current = some o' ∧ (o' = o ∨ o.Grows page pos o') := by
  cases h with
  | blank | passed | ignored => exact ⟨rfl, rfl, o, hs, Or.inl rfl⟩
  | regionStart hread => exact ⟨rfl, rfl, _, rfl, Or.inr (.regionStart hread)⟩
  | regionEnd hread => exact ⟨rfl, rfl, _, rfl, Or.inr (.regionEnd hread)⟩
  | constant => exact ⟨rfl, rfl, _, rfl, Or.inr (.constant ⟨_, _, rfl⟩)⟩
  | label _ visibility => exact ⟨rfl, rfl, _, rfl, Or.inr (.label visibility)⟩
  | method _ hle hstart _ hread =>
      exact ⟨rfl, rfl, _, rfl, Or.inr (.method hle hstart ⟨_, _, rfl⟩ hread)⟩
  | member _ hread => exact ⟨rfl, rfl, _, rfl, Or.inr (.member ⟨_, _, rfl⟩ hread)⟩

/-- So it is one of the moves. -/
theorem HeaderScan.Inside.moves {s' : HeaderScan} {next : Nat}
    (h : s.Inside page o pos next s') (hs : s.current = some o) (hpos : pos < o.bodyEnd) :
    s.Moves page pos s' next := by
  obtain ⟨htypes, hconstants, o', hs', rfl | hgrows⟩ := h.grows hs
  · exact .stays htypes hconstants (hs'.trans hs.symm)
  · exact .grows hs hpos hgrows htypes hconstants hs'

/-- A step outside types. -/
theorem HeaderScan.Outside.moves {s' : HeaderScan} {next : Nat} (h : s.Outside page pos s' next) :
    s.Moves page pos s' next := by
  cases h with
  | blank | ignored | passed => exact .stays rfl rfl rfl
  | constant => exact .constant ⟨_, _, rfl⟩ rfl rfl rfl
  | opens _ hhead => exact .opens ⟨_, _, rfl⟩ hhead rfl rfl rfl rfl

/-- Finishing a type. -/
theorem moves_finishType (hs : s.current = some o) {closingName : Text}
    (hname : closingName = [] ∨ o.IsName page closingName) (next : Nat) :
    s.Moves page pos (finishType s o closingName) next := by
  obtain ⟨hconstants, hnone, htypes | ⟨name, hname', htypes⟩⟩ := finishType_eq page s hname
  · exact .drops htypes hconstants hnone
  · exact .closes hs hname' htypes hconstants hnone

/-- **A step does no more than that.** -/
theorem moves_headerStep (page : Page) (s : HeaderScan) (pos : Nat) :
    s.Moves page pos (headerStep page s pos).1 (headerStep page s pos).2 := by
  rw [headerStep]
  split
  · exact (outsideStep_outside page s pos).moves
  · rename_i o hs
    split
    · obtain ⟨closingName, hname, heq, -⟩ := closeType_spec page s o
      rw [heq]
      exact moves_finishType hs hname _
    · exact (insideStep_spec page s o pos).2.moves hs (by omega)

end

/-- A change of the last element that keeps what all elements have. -/
theorem forall_mem_modifyLast {α : Type} {P : α → Prop} {f : α → α} {l : List α}
    (h : ∀ a ∈ l, P a) (hf : ∀ a, P a → P (f a)) : ∀ a ∈ modifyLast f l, P a :=
  forall_mem_modify h hf _

/-- **The end of a region** changes the last method or the last member of a type and nothing else:
what no marker takes away stays. -/
theorem OpenType.endRegion_eq (o : OpenType) (marker : Text) :
    ∃ methods members,
      o.endRegion marker = { o with decl.methods := methods, decl.members := members } ∧
      (∀ {P : Method → Prop}, (∀ m ∈ o.decl.methods, P m) →
        (∀ m, P m → P { m with headerRegionEnd := marker }) → ∀ m ∈ methods, P m) ∧
      (∀ {P : Member → Prop}, (∀ m ∈ o.decl.members, P m) →
        (∀ m, P m → P { m with regionEnd := marker }) → ∀ m ∈ members, P m) := by
  rw [OpenType.endRegion]
  split
  · exact ⟨_, _, rfl, fun h _ => h, fun h _ => h⟩
  · exact ⟨_, _, rfl, fun h hmark => forall_mem_modifyLast h hmark, fun h _ => h⟩
  · exact ⟨_, _, rfl, fun h _ => h, fun h hmark => forall_mem_modifyLast h hmark⟩

/-! ### The whole reading -/

/-- A property of open types, at a position of their bodies, that opened types have and no step
takes away. -/
structure Page.Keeps (page : Page) (Q : Nat → OpenType → Prop) : Prop where
  opens : ∀ {pos : Nat} {head : TypeHead} {comments : List Text}, typeHead? page pos = some head →
    page.HasComment comments → Q (head.brace + 1) (page.opened head comments)
  stays : ∀ {pos next : Nat} {o : OpenType}, Q pos o → pos ≤ next → Q next o
  grows : ∀ {pos : Nat} {o o' : OpenType}, Q pos o → pos < o.bodyEnd → o.Grows page pos o' →
    Q pos o'

/-- **What a reading has come to** if a property is kept: the open type has it, and every finished
type comes from an open one that had it. -/
structure HeaderScan.Kept (page : Page) (Q : Nat → OpenType → Prop) (s : HeaderScan) (pos : Nat) :
    Prop where
  current : ∀ o, s.current = some o → Q pos o
  finished : ∀ d ∈ s.types, ∃ pos o name, Q pos o ∧ o.IsName page name ∧ d = o.finished name

namespace HeaderScan.Kept

variable {page : Page} {Q : Nat → OpenType → Prop} {s s' : HeaderScan} {pos next : Nat}

/-- Every move keeps the property. -/
theorem moves (h : s.Kept page Q pos) (hQ : page.Keeps Q) (hle : pos ≤ next)
    (hmoves : s.Moves page pos s' next) : s'.Kept page Q next := by
  cases hmoves with
  | stays htypes _ hcurrent =>
      exact ⟨fun o ho => hQ.stays (h.current o (hcurrent ▸ ho)) hle, htypes ▸ h.finished⟩
  | constant _ htypes _ hcurrent =>
      exact ⟨fun o ho => hQ.stays (h.current o (hcurrent ▸ ho)) hle, htypes ▸ h.finished⟩
  | opens hcomments hhead hnext htypes _ hcurrent =>
      refine ⟨fun o ho => ?_, htypes ▸ h.finished⟩
      obtain rfl := Option.some.inj (hcurrent.symm.trans ho)
      exact hnext ▸ hQ.opens hhead hcomments
  | grows hs hpos hgrows htypes _ hcurrent =>
      refine ⟨fun o ho => ?_, htypes ▸ h.finished⟩
      obtain rfl := Option.some.inj (hcurrent.symm.trans ho)
      exact hQ.stays (hQ.grows (h.current _ hs) hpos hgrows) hle
  | drops htypes _ hcurrent =>
      exact ⟨fun o ho => by simp [hcurrent] at ho, htypes ▸ h.finished⟩
  | closes hs hname htypes _ hcurrent =>
      refine ⟨fun o ho => by simp [hcurrent] at ho, fun d hd => ?_⟩
      rw [htypes] at hd
      rcases List.mem_append.mp hd with hd | hd
      · exact h.finished d hd
      · obtain rfl := List.mem_singleton.mp hd
        exact ⟨pos, _, _, h.current _ hs, hname, rfl⟩

end HeaderScan.Kept

/-- Every step of the reading of a page keeps the property. -/
theorem Page.Reaches.kept {page : Page} {Q : Nat → OpenType → Prop} {s : HeaderScan} {pos : Nat}
    (h : page.Reaches s pos) (hpage : page.masked.length = page.text.length)
    (hQ : page.Keeps Q) : s.Kept page Q pos := by
  induction h with
  | start =>
      refine ⟨fun o ho => ?_, fun d hd => ?_⟩
      · cases ho
      · cases hd
  | @step s pos hreach hpos ih =>
      have hlt := ((hreach.placedAt hpage).step hpage hpos).1
      exact ih.moves hQ (Nat.le_of_lt hlt) (moves_headerStep page s pos)

/-- **Every type of a header comes from an open type with the property**; only the constants of the
file may have come to it afterwards. A type whose brace is missing is finished at the end of the
text. -/
theorem Page.Keeps.forall_types {text path : Text} {Q : Nat → OpenType → Prop}
    (hQ : (Page.ofText text path).Keeps Q) :
    ∀ d ∈ (parseHeader text path).1.types, ∃ pos o name constants, Q pos o ∧
      o.IsName (Page.ofText text path) name ∧
      d = { o.finished name with headerConstants := constants } := by
  generalize hof : Page.ofText text path = page at hQ
  have hpage : page.masked.length = page.text.length := hof ▸ length_maskCode _
  have hstart : page.Reaches page.firstScan 0 := Page.Reaches.start
  obtain ⟨stop, -, hreach⟩ := hstart.loop hpage
  have hkept := hreach.kept hpage hQ
  have hfinal : (finishOpenType (headerLoop page page.firstScan 0)).Kept page Q stop := by
    rw [finishOpenType]
    split
    · exact hkept
    · rename_i o hs
      have hreport : (HeaderScan.report (headerLoop page page.firstScan 0)
          (.missingBrace o.decl.name)).Kept page Q stop := ⟨hkept.current, hkept.finished⟩
      refine hreport.moves hQ (Nat.le_refl _) (moves_finishType ?_ (Or.inl rfl) _)
      exact hs
  intro d hd
  have hmem := List.mem_map_of_mem (f := fun d => { d with headerConstants := [] }) hd
  rw [parseHeader, hof] at hmem
  dsimp only at hmem
  rw [map_types_readHeader (fun _ _ => rfl)] at hmem
  obtain ⟨d', hd', heq⟩ := List.mem_map.mp hmem
  obtain ⟨pos, o, name, hpos, hname, rfl⟩ := hfinal.finished d' hd'
  refine ⟨pos, o, name, d.headerConstants, hpos, hname, ?_⟩
  exact (congrArg (fun c : TypeDecl => { c with headerConstants := d.headerConstants }) heq).symm

end Sharpen
