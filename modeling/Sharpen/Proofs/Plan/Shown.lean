import Mathlib.Data.List.Basic
import Mathlib.Data.List.Nodup
import Mathlib.Data.List.Perm.Basic
import Sharpen.Proofs.Plan.Sections

/-!
# What the Files of a Plan Show

A method is written with its body if it is in a section of a class or in a type that a source
defines. Of the types of the headers only those that their names stand for have sections, and the
sections of an interface show none of its bodies. So which methods are shown is decided place by
place.

Files show two kinds of things: sections of types from headers, and whole types that sources define.
Both are followed through the making of the files, which adds to files and never takes away. The
places of shown types are listed once for each, so that counting methods over files is counting them
over places, and a method that no file shows is one at a place that is not listed.

## Main definitions

* `Plan.shownMethods`, `perm_shownMethods` — the methods that are shown are those of the types at
  the shown places, each once.
* `FileTable.embedded` — all types in files that sources define.
* `shownPlaces` — the places of the types whose methods are shown: those of headers that their names
  stand for and that are no interfaces, and all that sources define.
* `methodsAt` — the methods of the type at a place at the end.

## Main results

* `perm_embedded_ofParts` — the types that sources define are in the files, each once.
* `mem_shownPlaces_iff`, `nodup_shownPlaces` — which places are shown.
* `perm_embedded_update` — a change that adds types to a file adds them to all files.
* `perm_embedded_planFiles` — the types that sources define are in the files, each once.
-/

namespace Sharpen

/-! ### Types that sources define -/

/-- All types in files that sources define. -/
def FileTable.embedded (t : FileTable) : List TypeDecl :=
  t.files.flatMap OutputFile.embedded

/-- **A change that adds types to a file adds them to all files.** -/
theorem perm_embedded_update {more : List TypeDecl} {f : OutputFile → OutputFile} (t : FileTable)
    (name : Text) (hf : ∀ g, (f g).embedded = g.embedded ++ more) :
    (t.update name f).embedded.Perm (t.embedded ++ more) := by
  rw [FileTable.embedded, FileTable.embedded]
  rcases t.update_files name f with ⟨l, g, r, hfiles, -, hafter⟩ | ⟨-, hafter⟩
  · rw [hafter, hfiles, List.flatMap_append, List.flatMap_cons, hf, List.flatMap_append,
      List.flatMap_cons]
    simp only [List.append_assoc]
    exact (List.perm_append_comm.append_left _).append_left _
  · rw [hafter, List.flatMap_append, List.flatMap_singleton, hf, List.nil_append]

/-- A change that leaves them alone. -/
theorem perm_embedded_update_of_eq {f : OutputFile → OutputFile} (t : FileTable) (name : Text)
    (hf : ∀ g, (f g).embedded = g.embedded) : (t.update name f).embedded.Perm t.embedded := by
  have hnone : ∀ g, (f g).embedded = g.embedded ++ [] := by simpa using hf
  exact (perm_embedded_update t name hnone).trans (List.Perm.of_eq (List.append_nil _))

/-- A run of steps, each of which adds some types. -/
theorem perm_embedded_foldl {α : Type} {step : FileTable → α → FileTable}
    {added : α → List TypeDecl}
    (hstep : ∀ t a, (step t a).embedded.Perm (t.embedded ++ added a)) (l : List α)
    (t : FileTable) : (l.foldl step t).embedded.Perm (t.embedded ++ l.flatMap added) := by
  induction l generalizing t with
  | nil => simp
  | cons a r ih =>
      rw [List.foldl_cons, List.flatMap_cons, ← List.append_assoc]
      exact (ih _).trans ((hstep t a).append_right _)

/-- A run of steps that leave them alone. -/
theorem perm_embedded_foldl_of_eq {α : Type} {step : FileTable → α → FileTable}
    (hstep : ∀ t a, (step t a).embedded.Perm t.embedded) (l : List α) (t : FileTable) :
    (l.foldl step t).embedded.Perm t.embedded :=
  List.foldlRecOn (motive := fun u : FileTable => u.embedded.Perm t.embedded) l step
    (List.Perm.refl _) fun u hu a _ => (hstep u a).trans hu

/-- Making the file of a header embeds nothing. -/
theorem perm_embedded_addHeader (t : FileTable) (h : Header) :
    (addHeader t h).embedded.Perm t.embedded := by
  rw [addHeader]
  split
  · exact List.Perm.refl _
  · exact perm_embedded_update_of_eq t _ fun _ => rfl

/-- Nor does laying out a type. -/
theorem perm_embedded_addType (t : FileTable) (d : TypeDecl) :
    (addType t d).embedded.Perm t.embedded := by
  have hfragment : ∀ (u : FileTable) (target : Text),
      (addFragment d u target).embedded.Perm u.embedded := by
    intro u target
    rw [addFragment]
    generalize ((u.find? target).all fun f => f.headerStem.isEmpty || f.headerStem == d.file) = free
    refine (perm_embedded_update_of_eq _ _ ?_).trans (List.Perm.of_eq ?_)
    · exact fun _ => rfl
    · -- A report about the move leaves the files alone.
      split
      · rfl
      · rfl
  have hmain : ∀ s : Section, (t.addSection d.file s).embedded.Perm t.embedded :=
    fun s => perm_embedded_update_of_eq t _ fun _ => rfl
  rw [addType]
  split
  · exact (perm_embedded_foldl_of_eq hfragment _ _).trans (hmain _)
  · exact hmain _

/-- A source brings the types that it defines. -/
theorem perm_embedded_addSource (t : FileTable) (s : Source) :
    (addSource t s).embedded.Perm (t.embedded ++ s.structs) := by
  have hstructs : (if s.structs.isEmpty then t
      else t.update s.stem fun f => { f with embedded := f.embedded ++ s.structs }).embedded.Perm
        (t.embedded ++ s.structs) := by
    split
    · rename_i hnone
      rw [List.isEmpty_iff.mp hnone, List.append_nil]
    · exact perm_embedded_update t _ fun _ => rfl
  have hbanner : ∀ u : FileTable, (if (u.find? s.stem).isSome then
      u.update s.stem fun f => { f with banner := nonemptyOr f.banner s.banner }
      else u).embedded.Perm u.embedded := by
    intro u
    split
    · exact perm_embedded_update_of_eq u _ fun _ => rfl
    · exact List.Perm.refl _
  exact (hbanner _).trans hstructs

/-- **The types that sources define are in the files**, each once. -/
theorem perm_embedded_planFiles (r : Reconciled) :
    (planFiles r).embedded.Perm (r.sources.flatMap Source.structs) := by
  have hheaders := perm_embedded_foldl_of_eq perm_embedded_addHeader r.headers {}
  have htypes := perm_embedded_foldl_of_eq perm_embedded_addType r.types
    (r.headers.foldl addHeader {})
  refine (perm_embedded_foldl perm_embedded_addSource r.sources _).trans ?_
  exact (htypes.trans hheaders).append_right _

section

variable (headers : List Header) (sources : List Source)

/-- So they are in the files of a plan. -/
theorem perm_embedded_ofParts :
    ((Plan.ofParts headers sources).files.flatMap OutputFile.embedded).Perm
      ((reconcileTypes headers sources).sources.flatMap Source.structs) := by
  rw [Plan.ofParts, flatMap_filter_of_eq_nil]
  · exact ((List.mergeSort_perm _ _).flatMap_right _).trans (perm_embedded_planFiles _)
  · intro f hf
    simp only [Bool.not_eq_false', Bool.and_eq_true, List.isEmpty_iff] at hf
    exact hf.2

/-! ### Shown places -/

/-- The number of types that headers declare; those that sources define have the places behind. -/
def headerCount : Nat :=
  ((headerOrder headers).flatMap Header.types).length

/-- The places of the types whose methods are shown: those of headers that their names stand for and
that are no interfaces, and all that sources define. -/
def shownPlaces : List Nat :=
  (((directoryFor headers sources).registry.entries.map Prod.snd).filter fun i =>
      decide (i < headerCount headers)
        && (typesBefore headers sources)[i]?.any fun d => !d.isInterface)
    ++ List.range' (headerCount headers)
      ((typesBefore headers sources).length - headerCount headers)

end

section

variable {headers : List Header} {sources : List Source}

/-- **Which places are shown.** -/
theorem mem_shownPlaces_iff {i : Nat} {d : TypeDecl}
    (hd : (typesBefore headers sources)[i]? = some d) :
    i ∈ shownPlaces headers sources ↔
      headerCount headers ≤ i ∨
        placeOf? headers sources d.name = some i ∧ d.isInterface = false := by
  have hlt : i < (typesBefore headers sources).length := (List.getElem?_eq_some_iff.mp hd).1
  have hentry : i ∈ (directoryFor headers sources).registry.entries.map Prod.snd ↔
      placeOf? headers sources d.name = some i := by
    constructor
    · intro h
      obtain ⟨e, he, rfl⟩ := List.mem_map.mp h
      have hplace := (Registry.mem_entries_ofTypes _ e).mp he
      obtain ⟨c, hc, hname⟩ := exists_type_of_placeOf? hplace
      obtain rfl : d = c := Option.some.inj (hd.symm.trans hc)
      exact hname ▸ hplace
    · intro h
      exact List.mem_map.mpr ⟨(d.name, i), (Registry.mem_entries_ofTypes _ _).mpr h, rfl⟩
  rw [shownPlaces, List.mem_append, List.mem_filter, hentry, hd, List.mem_range'_1]
  simp only [Option.any_some, Bool.and_eq_true, decide_eq_true_eq, Bool.not_eq_true']
  constructor
  · rintro (⟨hplace, -, hclass⟩ | ⟨hle, -⟩)
    · exact Or.inr ⟨hplace, hclass⟩
    · exact Or.inl hle
  · intro h
    by_cases hle : headerCount headers ≤ i
    · exact Or.inr ⟨hle, by omega⟩
    · obtain ⟨hplace, hclass⟩ := h.resolve_left hle
      exact Or.inl ⟨hplace, by omega, hclass⟩

/-- There is a type at every shown place. -/
theorem exists_type_of_mem_shownPlaces {i : Nat} (hi : i ∈ shownPlaces headers sources) :
    ∃ d, (typesBefore headers sources)[i]? = some d := by
  rcases List.mem_append.mp hi with hi | hi
  · have hany := (List.mem_filter.mp hi).2
    rw [Bool.and_eq_true] at hany
    cases hd : (typesBefore headers sources)[i]? with
    | none => simp [hd] at hany
    | some d => exact ⟨d, rfl⟩
  · obtain ⟨hle, hlt⟩ := List.mem_range'_1.mp hi
    exact ⟨_, List.getElem?_eq_getElem (by omega)⟩

variable (headers sources) in
/-- No place is shown twice. For a place shown twice would be that of a type with two names. -/
theorem nodup_shownPlaces : (shownPlaces headers sources).Nodup := by
  have hentries : ((directoryFor headers sources).registry.entries.map Prod.snd).Nodup := by
    refine List.Nodup.map_on (fun e he e' he' hsame => ?_)
      (Registry.nodup_names_ofTypes (typesBefore headers sources)).of_map
    have hplace := (Registry.mem_entries_ofTypes _ e).mp he
    have hplace' := (Registry.mem_entries_ofTypes _ e').mp he'
    obtain ⟨d, hd, hname⟩ := exists_type_of_placeOf? hplace
    obtain ⟨d', hd', hname'⟩ := exists_type_of_placeOf? hplace'
    rw [hsame] at hd
    obtain rfl : d = d' := Option.some.inj (hd.symm.trans hd')
    exact Prod.ext (hname.symm.trans hname') hsame
  refine List.nodup_append.mpr ⟨hentries.filter _, List.nodup_range', ?_⟩
  rintro i hi j hj rfl
  have hlt := (List.mem_filter.mp hi).2
  rw [Bool.and_eq_true, decide_eq_true_eq] at hlt
  have hle := (List.mem_range'_1.mp hj).1
  exact absurd hlt.1 (Nat.not_lt_of_le hle)

/-! ### Shown methods -/

variable (headers sources) in
/-- The methods of the type at a place at the end. -/
def methodsAt (i : Nat) : List Method :=
  ((typesAfter headers sources)[i]?.map TypeDecl.methods).getD []

/-- The methods in the sections of classes and in the types that sources define. -/
def Plan.shownMethods (p : Plan) : List Method :=
  p.files.flatMap fun f =>
    (f.sections.filter fun s => !s.type.isInterface).flatMap Section.methods
      ++ f.embedded.flatMap TypeDecl.methods

/-- The parts of some of the types are those among all parts that are parts of these types. -/
theorem filter_flatMap_parts (q : TypeDecl → Bool) (types : List TypeDecl) :
    (types.flatMap TypeDecl.parts).filter (fun s => q s.type)
      = (types.filter q).flatMap TypeDecl.parts := by
  have hparts : ∀ d : TypeDecl,
      d.parts.filter (fun s => q s.type) = if q d then d.parts else [] := by
    intro d
    split
    · rename_i hd
      exact List.filter_eq_self.mpr fun s hs => (TypeDecl.type_of_mem_parts hs).symm ▸ hd
    · rename_i hd
      exact List.filter_eq_nil_iff.mpr fun s hs => (TypeDecl.type_of_mem_parts hs).symm ▸ hd
  induction types with
  | nil => rfl
  | cons d r ih =>
      rw [List.flatMap_cons, List.filter_append, hparts, ih, List.filter_cons]
      split
      · rw [List.flatMap_cons]
      · rw [List.nil_append]

variable (headers sources) in
/-- The methods of a plan in terms of its types. -/
theorem perm_shownMethods_types :
    (Plan.ofParts headers sources).shownMethods.Perm
      (((Plan.ofParts headers sources).types.filter fun d => !d.isInterface).flatMap
          TypeDecl.methods
        ++ ((reconcileTypes headers sources).sources.flatMap Source.structs).flatMap
          TypeDecl.methods) := by
  refine (List.flatMap_append_perm _ _ _).symm.trans (List.Perm.append ?_ ?_)
  · have hsections := (laid_ofParts headers sources).perm.filter fun s => !s.type.isInterface
    rw [filter_flatMap_parts fun d => !d.isInterface, List.filter_flatMap] at hsections
    rw [← List.flatMap_assoc]
    refine (hsections.flatMap_right _).trans ?_
    rw [List.flatMap_assoc]
    exact List.Perm.flatMap_left _ fun d _ => d.flatMap_methods_parts
  · rw [← List.flatMap_assoc]
    exact (perm_embedded_ofParts headers sources).flatMap_right _

/-- What is found at places, of those that have a property. -/
theorem flatMap_filter_filterMap (find : Nat → Option TypeDecl) (q : TypeDecl → Bool)
    (places : List Nat) :
    ((places.filterMap find).filter q).flatMap TypeDecl.methods
      = (places.filter fun i => (find i).any q).flatMap fun i =>
          ((find i).map TypeDecl.methods).getD [] := by
  induction places with
  | nil => rfl
  | cons i r ih =>
      cases hfind : find i with
      | none => simp [hfind, ih]
      | some d => cases hq : q d <;> simp [hfind, hq, ih]

/-- What is found at the places behind a first part. -/
theorem flatMap_range_append (l r : List TypeDecl) :
    ((List.range' l.length r.length).flatMap fun i => ((l ++ r)[i]?.map TypeDecl.methods).getD [])
      = r.flatMap TypeDecl.methods := by
  induction r generalizing l with
  | nil => rfl
  | cons d r ih =>
      have hrest := ih (l ++ [d])
      rw [List.append_assoc, List.singleton_append, List.length_append, List.length_singleton]
        at hrest
      rw [List.length_cons, List.range'_succ, List.flatMap_cons, hrest, List.flatMap_cons,
        List.getElem?_append_right (Nat.le_refl _), Nat.sub_self, List.getElem?_cons_zero]
      rfl

/-- A type at the end is of the kind it was read with. -/
theorem isInterface_typesAfter (i : Nat) :
    ((typesAfter headers sources)[i]?.any fun d => !d.isInterface)
      = (typesBefore headers sources)[i]?.any fun d => !d.isInterface := by
  have hheads := congrArg (fun heads : List _ => heads[i]?.any fun t => !(t.2.1 == .interfaceType))
    (map_head_typesAfter headers sources)
  rw [List.getElem?_map, List.getElem?_map, Option.any_map, Option.any_map] at hheads
  exact hheads

variable (headers sources) in
/-- **The methods that are shown** are those of the types at the shown places, each once. -/
theorem perm_shownMethods :
    (Plan.ofParts headers sources).shownMethods.Perm
      ((shownPlaces headers sources).flatMap (methodsAt headers sources)) := by
  have hlength : (typesAfter headers sources).length = (typesBefore headers sources).length := by
    simpa using congrArg List.length (map_head_typesAfter headers sources)
  have hclasses : ((Plan.ofParts headers sources).types.filter fun d => !d.isInterface).flatMap
        TypeDecl.methods
      = (((directoryFor headers sources).registry.entries.map Prod.snd).filter fun i =>
          decide (i < headerCount headers)
            && (typesBefore headers sources)[i]?.any fun d => !d.isInterface).flatMap
              (methodsAt headers sources) := by
    rw [Plan.ofParts, reconcileTypes_eq, flatMap_filter_filterMap, List.filter_filter]
    refine congrArg (List.flatMap _) (List.filter_congr fun i _ => ?_)
    rw [isInterface_typesAfter, Bool.and_comm]
    rfl
  have hstructs : ((reconcileTypes headers sources).sources.flatMap Source.structs).flatMap
        TypeDecl.methods
      = (List.range' (headerCount headers)
          ((typesBefore headers sources).length - headerCount headers)).flatMap
            (methodsAt headers sources) := by
    have hle : headerCount headers ≤ (typesAfter headers sources).length := by
      rw [hlength, typesBefore, List.length_append]
      exact Nat.le_add_right _ _
    have hrange := flatMap_range_append ((typesAfter headers sources).take (headerCount headers))
      ((typesAfter headers sources).drop (headerCount headers))
    rw [List.take_append_drop, List.length_take_of_le hle, List.length_drop, hlength] at hrange
    rw [flatMap_structs_reconcileTypes]
    exact hrange.symm
  rw [shownPlaces, List.flatMap_append, ← hclasses, ← hstructs]
  exact perm_shownMethods_types headers sources

end

end Sharpen
