import Sharpen.Proofs.Header.Growth

/-!
# What Has Been Read Stays

A type gains members, methods and constants as its body is read, and loses none of them: later steps
add to it, mark the end of a region at its last item, and give it its name. So whatever is known of
a member or a method when it is read is known of it in the finished header, as long as the type gets
a name at all.

What lasts is stated as a property of types: a property lasts if no addition takes it away, if it
survives the marks of regions and the naming of the type, and if it does not depend on constants,
which come last. Having a given member or a given method up to its region is such a property. The
proofs follow the kinds of steps that the reading can take.

## Main definitions

* `OpenType.IsNamed` — an open type gets a name, from its head or from behind its closing brace.
* `Page.Lasting` — a property of types that no later step takes away; `Page.lasting_exists_member`
  and `Page.lasting_exists_method` give such properties.
* `HeaderScan.HasRead` — a type with the property has been read; `HasRead.step` and
  `HasRead.exists_types` are what one step and the whole reading keep of it.
-/

namespace Sharpen

/-! ### Names -/

/-- An open type gets a name: it has one, or there is one behind its closing brace. -/
def OpenType.IsNamed (page : Page) (o : OpenType) : Prop :=
  o.decl.name ≠ [] ∨ o.isTypedef = true ∧
    ∃ name stop, closeTail.readAt page.masked (o.bodyEnd + 1) = some (name, stop) ∧ name ≠ []

section

variable {page : Page} {s : HeaderScan} {o o' : OpenType} {pos : Nat}

/-- A type that grows goes on under its name, to the same closing brace. -/
theorem OpenType.Grows.isNamed (h : o.Grows page pos o') (hnamed : o.IsNamed page) :
    o'.IsNamed page := by
  cases h with
  | label | regionStart | constant | method | member => exact hnamed
  | regionEnd =>
      obtain ⟨methods, members, heq, -⟩ := o.endRegion_eq (regionComment false _)
      rw [heq]
      exact hnamed

end

/-- There is no name behind the end of a text. -/
theorem closeTail_readAt_of_length_le {t : Text} {i : Nat} (h : t.length ≤ i) :
    closeTail.readAt t i = none := by
  rw [Reader.readAt, Cursor.at, List.drop_eq_nil_of_le h]
  rfl

/-! ### Lasting properties -/

/-- **A property of types that lasts**: neither what is added to an open type nor its end nor the
constants of the file take it away. -/
structure Page.Lasting (page : Page) (P : TypeDecl → Prop) : Prop where
  grows : ∀ {pos : Nat} {o o' : OpenType}, P o.decl → o.Grows page pos o' → P o'.decl
  finished : ∀ {o : OpenType} (name : Text), P o.decl → P (o.finished name)
  constants : ∀ {d : TypeDecl} (constants : List Constant), P d →
    P { d with headerConstants := constants }

/-- A change of the last element that keeps what some element has. -/
theorem exists_mem_modifyLast {α : Type} {Q : α → Prop} {f : α → α} {l : List α}
    (h : ∃ a ∈ l, Q a) (hf : ∀ a, Q a → Q (f a)) : ∃ a ∈ modifyLast f l, Q a := by
  obtain ⟨a, ha, hQ⟩ := h
  obtain ⟨i, hi⟩ := List.mem_iff_getElem?.mp ha
  refine ⟨if l.length - 1 = i then f a else a, List.mem_of_getElem? (i := i) ?_, ?_⟩
  · rw [modifyLast, List.getElem?_modify, hi]
    rfl
  · split
    · exact hf a hQ
    · exact hQ

variable (page : Page)

/-- A type keeps a member of which something is known that no marker changes. -/
theorem Page.lasting_exists_member {Q : Member → Prop}
    (hmark : ∀ m marker, Q m → Q { m with regionEnd := marker }) :
    page.Lasting fun d => ∃ m ∈ d.members, Q m where
  grows h hgrows := by
    cases hgrows with
    | label | regionStart | constant | method => exact h
    | regionEnd =>
        rw [OpenType.endRegion]
        split
        · exact h
        · exact h
        · exact exists_mem_modifyLast h fun m => hmark m _
    | member =>
        obtain ⟨m, hm, hQ⟩ := h
        exact ⟨m, List.mem_append_left _ hm, hQ⟩
  finished _ h := h
  constants _ h := h

/-- A type keeps a method of which something is known that neither a marker nor the name of the type
changes. -/
theorem Page.lasting_exists_method {Q : Method → Prop}
    (hmark : ∀ m marker, Q m → Q { m with headerRegionEnd := marker })
    (howner : ∀ m name, Q m → Q (ownedMethod name m)) :
    page.Lasting fun d => ∃ m ∈ d.methods, Q m where
  grows h hgrows := by
    cases hgrows with
    | label | regionStart | constant | member => exact h
    | regionEnd =>
        rw [OpenType.endRegion]
        split
        · exact h
        · exact exists_mem_modifyLast h fun m => hmark m _
        · exact h
    | method =>
        obtain ⟨m, hm, hQ⟩ := h
        exact ⟨m, List.mem_append_left _ hm, hQ⟩
  finished name h := by
    obtain ⟨m, hm, hQ⟩ := h
    exact ⟨ownedMethod name m, List.mem_map_of_mem hm, howner m name hQ⟩
  constants _ h := h

/-! ### The whole reading -/

/-- A type with a property has been read: it is finished, or it is open and will be. -/
def HeaderScan.HasRead (P : TypeDecl → Prop) (s : HeaderScan) : Prop :=
  (∃ o, s.current = some o ∧ o.IsNamed page ∧ P o.decl) ∨ ∃ d ∈ s.types, P d

namespace HeaderScan.HasRead

variable {page : Page} {P : TypeDecl → Prop} {s : HeaderScan} {o : OpenType} {pos : Nat}

/-- Finishing the open type under a name. -/
theorem finishType (hP : page.Lasting P) (h : P o.decl) (s : HeaderScan) {closingName : Text}
    (hname : closingName ≠ [] ∨ o.decl.name ≠ []) :
    ∃ d ∈ (finishType s o closingName).types, P d := by
  have hne : (if closingName.isEmpty then o.decl.name else closingName).isEmpty = false := by
    rw [← Bool.not_eq_true]
    split
    · simp_all
    · assumption
  rw [Sharpen.finishType]
  dsimp only
  rw [hne]
  exact ⟨_, List.mem_append_right _ (List.mem_singleton_self _), hP.finished _ h⟩

/-- Closing the open type. -/
theorem closeType (hP : page.Lasting P) (hnamed : o.IsNamed page) (h : P o.decl)
    (s : HeaderScan) : ∃ d ∈ (closeType page s o).1.types, P d := by
  rw [Sharpen.closeType]
  split
  · rename_i name stop hread
    refine finishType hP h s ?_
    rcases hnamed with hname | ⟨htypedef, name', stop', hread', hname⟩
    · exact Or.inr hname
    · obtain ⟨rfl, -⟩ := Prod.mk.inj (Option.some.inj (hread'.symm.trans hread))
      rw [htypedef]
      exact Or.inl hname
  · rename_i hread
    refine finishType hP h s (Or.inr ?_)
    rcases hnamed with hname | ⟨-, name, stop, hread', -⟩
    · exact hname
    · rw [hread'] at hread
      cases hread

/-- **One step keeps what has been read.** -/
theorem step (h : s.HasRead page P) (hP : page.Lasting P) (pos : Nat) :
    (headerStep page s pos).1.HasRead page P := by
  rcases h with ⟨o, hs, hnamed, hread⟩ | ⟨d, hd, hread⟩
  · simp only [headerStep, hs]
    split
    · exact Or.inr (closeType hP hnamed hread s)
    · obtain ⟨-, -, o', hs', hgrown⟩ := (insideStep_spec page s o pos).2.grows hs
      refine Or.inl ⟨o', hs', ?_⟩
      rcases hgrown with rfl | hgrows
      · exact ⟨hnamed, hread⟩
      · exact ⟨hgrows.isNamed hnamed, hP.grows hread hgrows⟩
  · refine Or.inr ⟨d, ?_, hread⟩
    cases moves_headerStep page s pos with
    | stays htypes | constant _ htypes | opens _ _ _ htypes | grows _ _ _ htypes
    | drops htypes => exact htypes ▸ hd
    | closes _ _ htypes =>
        rw [htypes]
        exact List.mem_append_left _ hd

/-- The steps from a place on keep what has been read. -/
theorem headerLoop (h : s.HasRead page P) (hP : page.Lasting P) (pos : Nat) :
    (headerLoop page s pos).HasRead page P := by
  fun_induction Sharpen.headerLoop page s pos with
  | case1 s pos hpos s' next hstep hlt ih =>
      have hkept := h.step hP pos
      rw [hstep] at hkept
      exact ih hkept
  | case2 s pos hpos s' next hstep hlt =>
      have hkept := h.step hP pos
      rwa [hstep] at hkept
  | case3 s pos hpos => exact h

/-- The end of the text leaves no name for a type that is still open but the one it has. -/
theorem finishOpenType (h : s.HasRead page P) (hP : page.Lasting P) (hplaced : s.PlacedAt page pos)
    (hpos : page.text.length ≤ pos) (hpage : page.masked.length = page.text.length) :
    ∃ d ∈ (finishOpenType s).types, P d := by
  rcases h with ⟨o, hs, hnamed, hread⟩ | ⟨d, hd, hread⟩
  · simp only [Sharpen.finishOpenType, hs]
    refine finishType hP hread _ (Or.inr ?_)
    rcases hnamed with hname | ⟨-, name, stop, htail, -⟩
    · exact hname
    · have hle := (hplaced o hs).2
      rw [closeTail_readAt_of_length_le (by omega)] at htail
      cases htail
  · refine ⟨d, ?_, hread⟩
    rw [Sharpen.finishOpenType]
    split
    · exact hd
    · rename_i o _
      obtain ⟨-, -, htypes | ⟨name, -, htypes⟩⟩ :=
        finishType_eq page (s.report (.missingBrace o.decl.name)) (Or.inl rfl)
      · exact htypes ▸ hd
      · rw [htypes]
        exact List.mem_append_left _ hd

/-- **What has been read is there at the end.** Afterwards nothing but constants comes to a type. -/
theorem exists_types (h : s.HasRead page P) (hP : page.Lasting P) (hreach : page.Reaches s pos)
    (hpage : page.masked.length = page.text.length) : ∃ d ∈ (readHeader page).1.types, P d := by
  have hloop := h.headerLoop hP pos
  rw [hreach.headerLoop_eq hpage] at hloop
  have hstart : page.Reaches page.firstScan 0 := Page.Reaches.start
  obtain ⟨stop, hstop, hend⟩ := hstart.loop hpage
  obtain ⟨d, hd, hread⟩ := hloop.finishOpenType hP (hend.placedAt hpage) hstop hpage
  have hmem := List.mem_map_of_mem (f := fun d => { d with headerConstants := [] }) hd
  rw [← map_types_readHeader (fun _ _ => rfl)] at hmem
  obtain ⟨d', hd', heq⟩ := List.mem_map.mp hmem
  refine ⟨d', hd', ?_⟩
  have hsame : d' = { d with headerConstants := d'.headerConstants } :=
    congrArg (fun c : TypeDecl => { c with headerConstants := d'.headerConstants }) heq
  rw [hsame]
  exact hP.constants _ hread

end HeaderScan.HasRead

end Sharpen
