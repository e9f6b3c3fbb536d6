import Mathlib.Data.List.Basic
import Sharpen.Proofs.Plan.Declared

/-!
# Types That Sources Define

A source may define types of its own and implement their methods. All types share one table of
names, in which a name stands for the first type that has it, so the implementations of a source
reach a type of the same source only if no type before it has taken the name. This module says
exactly when they do, and what the type has of them at the end.

A source lists the types that it defines behind all types of headers and of sources before it.
Whether the name of such a type is free is therefore decided by what comes before, and by nothing
the source has. If it is free, the implementations of the source reach the type, unless they
complete a method of an interface that it lists as a base, and the type has all of them in the end.

## Main definitions

* `Embedding` — a type that a source defines, with all that comes before and behind it.
* `Embedding.place` — the place of the type among all types.
* `Embedding.NameIsFree` — no type before this one has its name.
* `Fate.place?` — the place of the type that an implementation has been attached to.
* `Handover.ServesBase` — whether an implementation has completed a method of another type, an
  interface that `d` lists as a base.

## Main results

* `Embedding.placeOf?_eq_place_iff` — when the name of such a type stands for it.
* `Embedding.exists_struct_reconcileTypes` — where the type is at the end.
* `place?_fate_iff` — when an implementation is attached to the type.
* `attached_embedded_iff` — the same for every implementation of the source that defines it, with
  what becomes of the type.
* `not_forall_attached_embedded` — two sources that define types of the same name.
* `place?_fate_iff_not_servesBase` — where an implementation goes: to the type that the name of its
  owner stands for, unless it completes a method of an interface that this type lists as a base.
* `exists_method_of_place?` — what a type has of an implementation that is attached to it: a method
  of its name with its body.
-/

namespace Sharpen

/-! ### Places -/

/-- A type that one of the sources defines, with the sources that are taken before and after that
source and the types that it defines above and below. -/
structure Embedding (sources : List Source) where
  earlier : List Source
  source : Source
  later : List Source
  above : List TypeDecl
  type : TypeDecl
  below : List TypeDecl
  sources_eq : sourceOrderByStem sources = earlier ++ source :: later
  structs_eq : source.structs = above ++ type :: below

namespace Embedding

variable {sources : List Source} (e : Embedding sources) (headers : List Header)

/-- The types that are taken before the type. -/
def before : List TypeDecl :=
  (headerOrder headers).flatMap Header.types ++ e.earlier.flatMap Source.structs ++ e.above

/-- The place of the type among all types. -/
def place : Nat :=
  (e.before headers).length

/-- No type before this one has its name. -/
structure NameIsFree : Prop where
  headers : ∀ h ∈ headers, ∀ c ∈ h.types, c.name ≠ e.type.name
  earlier : ∀ s ∈ e.earlier, ∀ c ∈ s.structs, c.name ≠ e.type.name
  above : ∀ c ∈ e.above, c.name ≠ e.type.name

/-- All types, around this one. -/
theorem typesBefore_eq :
    typesBefore headers sources
      = e.before headers ++ e.type :: (e.below ++ e.later.flatMap Source.structs) := by
  rw [typesBefore, e.sources_eq, List.flatMap_append, List.flatMap_cons, e.structs_eq, before]
  simp only [List.append_assoc, List.cons_append]

/-- The type is at its place. -/
theorem getElem?_place : (typesBefore headers sources)[e.place headers]? = some e.type := by
  rw [e.typesBefore_eq headers, place, List.getElem?_append_right (Nat.le_refl _), Nat.sub_self,
    List.getElem?_cons_zero]

/-- The types before this one are free of its name exactly if they all have other names. -/
theorem nameIsFree_iff :
    e.NameIsFree headers ↔ ∀ c ∈ e.before headers, c.name ≠ e.type.name := by
  have hheaders : ∀ c, c ∈ (headerOrder headers).flatMap Header.types
      ↔ c ∈ headers.flatMap Header.types := fun c =>
    ((List.mergeSort_perm _ _).flatMap_right _).mem_iff
  constructor
  · intro h c hc
    simp only [before, List.mem_append, hheaders, List.mem_flatMap] at hc
    rcases hc with (⟨g, hg, hc⟩ | ⟨s, hs, hc⟩) | hc
    · exact h.headers g hg c hc
    · exact h.earlier s hs c hc
    · exact h.above c hc
  · intro h
    refine ⟨fun g hg c hc => h c ?_, fun s hs c hc => h c ?_, fun c hc => h c ?_⟩
    · exact List.mem_append_left _ (List.mem_append_left _
        ((hheaders c).mpr (List.mem_flatMap.mpr ⟨g, hg, hc⟩)))
    · exact List.mem_append_left _ (List.mem_append_right _ (List.mem_flatMap.mpr ⟨s, hs, hc⟩))
    · exact List.mem_append_right _ hc

/-- **The name of a type that a source defines stands for it** exactly if no type before it has the
name. -/
theorem placeOf?_eq_place_iff :
    placeOf? headers sources e.type.name = some (e.place headers) ↔ e.NameIsFree headers := by
  rw [nameIsFree_iff, placeOf?, e.typesBefore_eq headers, place]
  exact findIdx?_name_eq_length_iff

/-- Some type has the name. -/
theorem placeOf?_ne_none : placeOf? headers sources e.type.name ≠ none := by
  intro hnone
  have hne := List.findIdx?_eq_none_iff.mp hnone e.type
    (List.mem_of_getElem? (e.getElem?_place headers))
  simp at hne

end Embedding

/-- Giving the sources their types back, one part of the sources after the other. -/
theorem restoreStructs_append (types : List TypeDecl) (place : Nat) (l r : List Source) :
    restoreStructs types place (l ++ r)
      = restoreStructs types place l
        ++ restoreStructs types (place + (l.flatMap Source.structs).length) r := by
  induction l generalizing place with
  | nil => rfl
  | cons s l ih =>
      rw [List.cons_append, restoreStructs, restoreStructs, ih, List.flatMap_cons,
        List.length_append, Nat.add_assoc, List.cons_append]

/-- As many sources get their types back as there are. -/
theorem length_restoreStructs (types : List TypeDecl) (place : Nat) (l : List Source) :
    (restoreStructs types place l).length = l.length := by
  induction l generalizing place with
  | nil => rfl
  | cons s l ih => rw [restoreStructs, List.length_cons, ih, List.length_cons]

/-- **Where a type that a source defines is at the end**: with this source, as the type at its place
then is. -/
theorem Embedding.exists_struct_reconcileTypes {sources : List Source} (e : Embedding sources)
    (headers : List Header) :
    ∃ s f, (reconcileTypes headers sources).sources[e.earlier.length]? = some s ∧
      s.stem = e.source.stem ∧ s.structs[e.above.length]? = some f ∧
      (typesAfter headers sources)[e.place headers]? = some f := by
  have hlength : (typesAfter headers sources).length = (typesBefore headers sources).length := by
    simpa using congrArg List.length (map_head_typesAfter headers sources)
  obtain ⟨hlt, -⟩ := List.getElem?_eq_some_iff.mp (e.getElem?_place headers)
  rw [← hlength] at hlt
  have habove : e.above.length < e.source.structs.length := by simp [e.structs_eq]
  refine ⟨{ e.source with structs := ((typesAfter headers sources).drop
      (((headerOrder headers).flatMap Header.types).length
        + (e.earlier.flatMap Source.structs).length)).take e.source.structs.length },
    (typesAfter headers sources)[e.place headers], ?_, rfl, ?_, List.getElem?_eq_getElem hlt⟩
  · rw [reconcileTypes_eq, e.sources_eq, restoreStructs_append, restoreStructs,
      List.getElem?_append_right (Nat.le_of_eq (length_restoreStructs _ _ _)),
      length_restoreStructs, Nat.sub_self, List.getElem?_cons_zero]
  · rw [List.getElem?_take_of_lt habove, List.getElem?_drop, ← List.getElem?_eq_getElem hlt]
    simp only [Embedding.place, Embedding.before, List.length_append]

/-! ### Fates -/

/-- The place of the type that an implementation has been attached to. -/
def Fate.place? : Fate → Option Nat
  | .dropped => none
  | .merged i _ => some i
  | .kept i _ => some i

section

variable {headers : List Header} {sources : List Source}

variable (headers sources) in
/-- Whether an implementation has completed a method of another type, an interface that `d` lists as
a base. -/
def Handover.ServesBase (h : Handover) (d : TypeDecl) : Prop :=
  ∃ i j c, h.fate = .merged i j ∧ (typesBefore headers sources)[i]? = some c ∧
    c.isInterface = true ∧ c.name ∈ d.bases ∧ c.name ≠ d.name

/-- A type that a name stands for has it. -/
theorem name_of_placeOf? {name : Text} {i : Nat} {c : TypeDecl}
    (h : placeOf? headers sources name = some i)
    (hc : (typesBefore headers sources)[i]? = some c) : c.name = name := by
  obtain ⟨d, hd, hname⟩ := exists_type_of_placeOf? h
  obtain rfl : c = d := Option.some.inj (hc.symm.trans hd)
  exact hname

/-- **Where an implementation goes**: to the type that the name of its owner stands for, unless it
completes a method of an interface that this type lists as a base. -/
theorem place?_fate_iff_not_servesBase (hs : ∀ s ∈ sources, s.HasBodies) {h : Handover}
    (hmem : h ∈ handovers headers sources) {i : Nat} {o : TypeDecl}
    (howner : placeOf? headers sources h.impl.owner = some i)
    (ho : (typesBefore headers sources)[i]? = some o) :
    h.fate.place? = some i ↔ ¬ h.ServesBase headers sources o := by
  obtain ⟨done, todo, hrun⟩ := List.append_of_mem hmem
  obtain ⟨ts, us, -, -, hdecided⟩ := handoversFrom_eq_append hrun
  constructor
  · rintro hplace ⟨k, j, c, hfate, hc, -, -, hne⟩
    rw [hfate, Fate.place?, Option.some.injEq] at hplace
    subst hplace
    exact hne (congrArg TypeDecl.name (Option.some.inj (hc.symm.trans ho)))
  · intro hbase
    cases hfate : h.fate with
    | dropped =>
        rw [hfate, eq_comm, fateOf_eq_dropped_iff, find?_directoryFor, howner] at hdecided
        cases hdecided
    | kept k m =>
        rw [hfate, eq_comm] at hdecided
        have hplace := (fateOf_eq_kept hdecided).1
        rw [find?_directoryFor, howner] at hplace
        exact hplace.symm
    | merged k j =>
        obtain ⟨owner, o', c, m, howner', ho', hc, -, -, -, -, hwhere⟩ :=
          exists_declared_of_merged hs hrun hfate
        obtain rfl : i = owner := Option.some.inj (howner.symm.trans howner')
        obtain rfl : o = o' := Option.some.inj (ho.symm.trans ho')
        rcases hwhere with rfl | ⟨hinterface, -, base, hmem, hplace⟩
        · rfl
        · -- The interface is the owner itself, or else the implementation serves it as a base.
          have hc' : c.name = base := name_of_placeOf? hplace hc
          by_cases hname : c.name = o.name
          · rw [← hc', hname, name_of_placeOf? howner ho, howner] at hplace
            exact hplace.symm
          · exact absurd ⟨k, j, c, hfate, hc, hinterface, hc' ▸ hmem, hname⟩ hbase

/-- **When an implementation is attached to a type that a source defines**: when no type before it
has its name, and the implementation does not serve an interface that the type lists as a base. -/
theorem place?_fate_iff (hs : ∀ s ∈ sources, s.HasBodies) (e : Embedding sources) {h : Handover}
    (hmem : h ∈ handovers headers sources) (howner : h.impl.owner = e.type.name) :
    h.fate.place? = some (e.place headers) ↔
      e.NameIsFree headers ∧ ¬ h.ServesBase headers sources e.type := by
  rw [← e.placeOf?_eq_place_iff]
  obtain ⟨i, hi⟩ := Option.ne_none_iff_exists'.mp (e.placeOf?_ne_none headers)
  obtain ⟨o, ho, hname⟩ := exists_type_of_placeOf? hi
  have hgoes := place?_fate_iff_not_servesBase hs hmem (howner ▸ hi) ho
  by_cases heq : i = e.place headers
  · subst heq
    obtain rfl : o = e.type := Option.some.inj (ho.symm.trans (e.getElem?_place headers))
    rw [hgoes]
    simp [hi]
  · refine iff_of_false (fun hplace => ?_) (fun h => heq (Option.some.inj (hi.symm.trans h.1)))
    have hbase : h.ServesBase headers sources o := by
      by_contra hnot
      exact heq (Option.some.inj ((hgoes.mpr hnot).symm.trans hplace))
    obtain ⟨k, j, c, hfate, hc, -, -, hne⟩ := hbase
    rw [hfate, Fate.place?, Option.some.injEq] at hplace
    rw [hplace, e.getElem?_place headers, Option.some.injEq] at hc
    exact hne (by rw [← hc, hname])

/-- **What a type has of an implementation that is attached to it**: a method of its name with its
body. No other implementation is merged into the method. -/
theorem exists_method_of_place? (hs : ∀ s ∈ sources, s.HasBodies) {h : Handover}
    (hmem : h ∈ handovers headers sources) {i : Nat} {f : TypeDecl}
    (hplace : h.fate.place? = some i) (hf : (typesAfter headers sources)[i]? = some f) :
    ∃ m ∈ f.methods, m.name = h.impl.name ∧ m.body = h.impl.body := by
  obtain ⟨done, todo, hrun⟩ := List.append_of_mem hmem
  cases hfate : h.fate with
  | dropped => simp [hfate, Fate.place?] at hplace
  | kept k m =>
      rw [hfate, Fate.place?, Option.some.injEq] at hplace
      subst hplace
      obtain ⟨ts, us, -, -, hdecided⟩ := handoversFrom_eq_append hrun
      rw [hfate, eq_comm] at hdecided
      obtain ⟨howner, hm⟩ := fateOf_eq_kept hdecided
      rw [find?_directoryFor] at howner
      obtain ⟨d, hd, -⟩ := exists_type_of_placeOf? howner
      obtain ⟨f', rest, functions, hf', -, hmethods, -, hperm⟩ := exists_methods_typesAfter hs hd
      obtain rfl : f = f' := Option.some.inj (hf.symm.trans hf')
      have hkept : m ∈ keptAt (handovers headers sources) k :=
        List.mem_filterMap.mpr ⟨h, hmem, by simp [hfate]⟩
      have hrest : m ∈ rest := hperm.symm.subset (List.mem_append_left _ hkept)
      refine ⟨m, hmethods ▸ List.mem_append_right _ hrest, ?_⟩
      rcases hm with rfl | rfl
      · exact ⟨rfl, rfl⟩
      · exact ⟨rfl, rfl⟩
  | merged k j =>
      rw [hfate, Fate.place?, Option.some.injEq] at hplace
      subst hplace
      obtain ⟨owner, o, d, m, -, -, hd, hm, hname, -, -, -⟩ :=
        exists_declared_of_merged hs hrun hfate
      obtain ⟨f', hf', htake⟩ := exists_take_typesAfter hd
      obtain rfl : f = f' := Option.some.inj (hf.symm.trans hf')
      have hmerged : mergedInto (handovers headers sources) k j = [h.impl] := by
        have himpl : h.impl ∈ mergedInto (handovers headers sources) k j :=
          List.mem_map_of_mem (List.mem_filter.mpr ⟨hmem, by simp [hfate]⟩)
        obtain ⟨a, ha⟩ := List.length_eq_one_iff.mp (Nat.le_antisymm
          (length_mergedInto_le_one hs k j) (List.length_pos_of_mem himpl))
        rw [ha, List.mem_singleton] at himpl
        rw [ha, himpl]
      have hfinal : (f.methods.take d.methods.length)[j]? = some (m.merge h.impl) := by
        rw [htake, enriched, List.getElem?_mapIdx, hm, Option.map_some, hmerged]
        rfl
      exact ⟨_, List.mem_of_mem_take (List.mem_of_getElem? hfinal), hname, rfl⟩

variable (headers) in
/-- **The implementations of a type that a source defines**, for all headers and all sources whose
methods have bodies: an implementation that the same source has for it is attached to it exactly
when no type of a header, no type of a source before and no type above has its name, and the
implementation does not serve an interface that it lists as a base. What is attached, the type has
at the end, where it is still with its source. -/
theorem attached_embedded_iff (hs : ∀ s ∈ sources, s.HasBodies) (e : Embedding sources)
    {impl : Method} (himpl : impl ∈ e.source.methods) (howner : impl.owner = e.type.name) :
    (∃ h ∈ handovers headers sources, h.impl = impl) ∧
      ∀ h ∈ handovers headers sources, h.impl = impl →
        (h.fate.place? = some (e.place headers) ↔
          e.NameIsFree headers ∧ ¬ h.ServesBase headers sources e.type) ∧
        (h.fate.place? = some (e.place headers) →
          ∃ s f, (reconcileTypes headers sources).sources[e.earlier.length]? = some s ∧
            s.stem = e.source.stem ∧ s.structs[e.above.length]? = some f ∧
            ∃ m ∈ f.methods, m.name = impl.name ∧ m.body = impl.body) := by
  have hsource : e.source ∈ sources := by
    refine List.mem_mergeSort.mp (e.sources_eq ▸ ?_ : e.source ∈ sourceOrderByStem sources)
    exact List.mem_append_right _ List.mem_cons_self
  constructor
  · have hmem : impl ∈ (handovers headers sources).map Handover.impl :=
      (perm_impl_handovers headers sources).symm.subset
        (List.mem_flatMap.mpr ⟨e.source, hsource, himpl⟩)
    exact List.mem_map.mp hmem
  · rintro h hmem rfl
    refine ⟨place?_fate_iff hs e hmem howner, fun hplace => ?_⟩
    obtain ⟨s, f, hs', hstem, hstruct, hf⟩ := e.exists_struct_reconcileTypes headers
    exact ⟨s, f, hs', hstem, hstruct, exists_method_of_place? hs hmem hplace hf⟩

end

/-! ### Types of the same name -/

/-- A type with one method, as the source `stem` defines it. -/
def runStruct (stem name : Text) : TypeDecl where
  name := name
  kind := .structType
  structForm := some .plain
  file := stem
  methods := [{ name := "run", returnType := "void", visibility := .intern, owner := name,
                targetFile := stem, originFile := stem, order := 1, position := 18 }]

/-- A source that defines this type and implements its method. -/
def structSource (stem name : Text) : Source where
  stem := stem
  structs := [runStruct stem name]
  methods := [{ name := "run", returnType := "void", owner := name, body := some [],
                targetFile := stem, originFile := stem, order := 2, position := 34 }]

/-- The text of such a source. -/
def nodeText : Text :=
  "struct Node\n\x7b\n    void run();\n\x7d;\n\nvoid Node::run()\n\x7b\n\x7d\n"

/-- Two such sources. -/
def structSources (first second : Text) : List Source :=
  [structSource "a" first, structSource "b" second]

/-- The type that the second source defines. -/
def secondStruct (first second : Text) : Embedding (structSources first second) where
  earlier := [structSource "a" first]
  source := structSource "b" second
  later := []
  above := []
  type := runStruct "b" second
  below := []
  sources_eq := by
    refine List.mergeSort_of_pairwise ?_
    simp only [structSources, List.pairwise_pair]
    exact (rfl : Text.precedes "a" "b" = true)
  structs_eq := rfl

/-- The implementations of two sources with types of different names: the second type has its
own. -/
theorem attached_structSources :
    ∃ h ∈ handovers [] (structSources "Node" "Leaf"),
      h.impl ∈ (structSource "b" "Leaf").methods ∧
      h.fate.place? = some ((secondStruct "Node" "Leaf").place []) := by
  have hs : ∀ s ∈ structSources "Node" "Leaf", s.HasBodies := by decide
  have hfree : (secondStruct "Node" "Leaf").NameIsFree [] := by
    refine ⟨by simp, ?_, by simp [secondStruct]⟩
    decide
  obtain ⟨⟨h, hmem, himpl⟩, hall⟩ := attached_embedded_iff [] hs
    (secondStruct "Node" "Leaf") List.mem_cons_self rfl
  refine ⟨h, hmem, himpl ▸ List.mem_cons_self, (hall h hmem himpl).1.mpr ⟨hfree, ?_⟩⟩
  rintro ⟨i, j, c, -, -, -, hbase, -⟩
  cases hbase

/-- **Types of the same name take each other's implementations**: not in all sources that are read
from texts, even if their names are different, is what a source implements of a type that it defines
attached to this type. -/
theorem not_forall_attached_embedded :
    ¬ ∀ (headers : List Header) (sources : List Source),
      (∀ s ∈ sources, ∃ text path, s = (parseSource text path).1) →
      (sources.map Source.stem).Nodup →
      ∀ e : Embedding sources, ∀ impl ∈ e.source.methods, impl.owner = e.type.name →
        ∃ h ∈ handovers headers sources, h.impl = impl ∧
          h.fate.place? = some (e.place headers) := by
  intro hall
  have hread : ∀ s ∈ structSources "Node" "Node", ∃ text path, s = (parseSource text path).1 := by
    intro s hs
    simp only [structSources, List.mem_cons, List.not_mem_nil, or_false] at hs
    rcases hs with rfl | rfl
    · exact ⟨nodeText, "a.cpp", by decide +kernel⟩
    · exact ⟨nodeText, "b.cpp", by decide +kernel⟩
  have hs : ∀ s ∈ structSources "Node" "Node", s.HasBodies := by decide
  obtain ⟨h, hmem, himpl, hplace⟩ := hall [] (structSources "Node" "Node") hread (by decide)
    (secondStruct "Node" "Node") _ List.mem_cons_self rfl
  have hfree := ((place?_fate_iff hs _ hmem (himpl ▸ rfl)).mp hplace).1
  exact hfree.earlier _ List.mem_cons_self _ List.mem_cons_self rfl

end Sharpen
