import Mathlib.Data.List.Basic
import Mathlib.Data.List.Induction
import Sharpen.Proofs.Plan.Accounting

/-!
# What Headers Decide

An implementation completes a declaration, and the declaration stays the authority on everything
that a header says: how the method is called and used, its types and its default values. Only the
names of parameters follow the implementation, where it gives any. This module follows the methods
that a type was read with over a whole run, however many implementations reach them.

What a header decides is collected in a value of its own, and merging an implementation leaves this
value. Parameter names are outside of it: they are the first that is given among the
implementations, from the last to the first, and then that of the declaration. The statement about a
run follows by looking at one task, which changes the methods of one type at most.

## Main definitions

* `Method.declaration`, `Parameter.declaration` — what a header decides about a method and about a
  parameter.
* `Method.Retains`, `retains_foldl_merge` — what a method keeps when implementations are merged into
  it one after the other.
* `MethodDeclaration` — what a header decides about a method.
* `ParameterDeclaration` — what a header decides about a parameter.
* `Method.givenName?` — the name that a method gives its parameter at index `k`, if it gives it one.

## Main results

* `take_methods_foldl_perform` — the first methods of a type after a run are those before it, with
  the implementations of the record merged into them.
* `retains_ofParts` — every method of a type in a plan that its header declared retains what the
  header decides, for all headers and sources.
* `take_methods_perform` — what a task does to the first methods of a type: it merges what it hands
  over, and adds methods only behind them.
-/

namespace Sharpen

/-! ### One merge -/

/-- What a header decides about a method. -/
structure MethodDeclaration where
  name : Text
  owner : Text
  returnType : Text
  visibility : Visibility
  isStatic : Bool
  isVirtual : Bool
  isConst : Bool
  isPure : Bool
  isConstructor : Bool
  isDestructor : Bool
  hasInlineBody : Bool
  inlineBody : Text
  originFile : Text
  position : Nat
  comments : List Text
  regionStart : Text
  regionEnd : Text

/-- What the header decides about this method. -/
def Method.declaration (m : Method) : MethodDeclaration where
  name := m.name
  owner := m.owner
  returnType := m.returnType
  visibility := m.visibility
  isStatic := m.isStatic
  isVirtual := m.isVirtual
  isConst := m.isConst
  isPure := m.isPure
  isConstructor := m.isConstructor
  isDestructor := m.isDestructor
  hasInlineBody := m.hasInlineBody
  inlineBody := m.inlineBody
  originFile := m.originFile
  position := m.position
  comments := m.headerComments
  regionStart := m.headerRegionStart
  regionEnd := m.headerRegionEnd

/-- What a header decides about a parameter. -/
structure ParameterDeclaration where
  baseType : Text
  isConst : Bool
  isPointer : Bool
  isReference : Bool
  default? : Option Text
  key : Text

/-- What the header decides about this parameter. -/
def Parameter.declaration (p : Parameter) : ParameterDeclaration where
  baseType := p.baseType
  isConst := p.isConst
  isPointer := p.isPointer
  isReference := p.isReference
  default? := p.default?
  key := p.key

/-- The name that a method gives its parameter at index `k`, if it gives it one. -/
def Method.givenName? (m : Method) (k : Nat) : Option Text :=
  (m.parameters[k]?.map Parameter.name).filter fun n => !n.isEmpty

/-- Parameters are merged place by place; one that only one side has stays as it is. -/
theorem getElem?_mergeParameters (declared implemented : List Parameter) (k : Nat) :
    (mergeParameters declared implemented)[k]? =
      match declared[k]?, implemented[k]? with
      | some d, some i => some (d.merge i)
      | some d, none => some d
      | none, i => i := by
  induction declared, implemented using mergeParameters.induct generalizing k with
  | case1 ps => simp [mergeParameters]
  | case2 ps hne =>
      rw [mergeParameters, List.getElem?_nil]
      · cases ps[k]? <;> rfl
      · exact hne
  | case3 d ds i is ih =>
      rw [mergeParameters]
      cases k with
      | zero => rfl
      | succ k => simpa using ih k

/-- A parameter that a header declared keeps its declaration, and takes the name that the
implementation gives. -/
theorem exists_parameter_merge {m : Method} {k : Nat} {p : Parameter}
    (hp : m.parameters[k]? = some p) (impl : Method) :
    ∃ q, (m.merge impl).parameters[k]? = some q ∧ q.declaration = p.declaration ∧
      q.name = (impl.givenName? k).getD p.name := by
  have hmerge := getElem?_mergeParameters m.parameters impl.parameters k
  rw [hp] at hmerge
  cases hi : impl.parameters[k]? with
  | none =>
      rw [hi] at hmerge
      refine ⟨p, hmerge, rfl, ?_⟩
      simp [Method.givenName?, hi]
  | some i =>
      rw [hi] at hmerge
      refine ⟨p.merge i, hmerge, rfl, ?_⟩
      by_cases hname : i.name.isEmpty = true <;>
        simp [Method.givenName?, hi, Parameter.merge, nonemptyOr, hname, Option.filter]

/-! ### Any number of merges -/

/-- **What a declared method retains** after the given implementations have been merged into it, in
this order: all that the header decides, and of its parameters, each in its place, all but the name,
which is the last one that an implementation gives, else the header's. -/
structure Method.Retains (declared : Method) (impls : List Method) (final : Method) : Prop where
  declaration : final.declaration = declared.declaration
  parameters : ∀ k p, declared.parameters[k]? = some p →
    ∃ q, final.parameters[k]? = some q ∧ q.declaration = p.declaration ∧
      q.name = ((impls.filterMap (·.givenName? k)).getLast?).getD p.name

/-- One more merge. -/
theorem Method.Retains.merge {declared final : Method} {impls : List Method}
    (h : declared.Retains impls final) (impl : Method) :
    declared.Retains (impls ++ [impl]) (final.merge impl) := by
  refine ⟨h.declaration, fun k p hp => ?_⟩
  obtain ⟨q, hq, hdeclaration, hname⟩ := h.parameters k p hp
  obtain ⟨r, hr, hdeclaration', hname'⟩ := exists_parameter_merge hq impl
  refine ⟨r, hr, hdeclaration'.trans hdeclaration, ?_⟩
  rw [hname', List.filterMap_append, List.getLast?_append, hname]
  cases hgiven : impl.givenName? k with
  | none => simp [hgiven]
  | some n => simp [hgiven]

/-- **Merging implementations one after the other** leaves what the header decides. -/
theorem retains_foldl_merge (declared : Method) (impls : List Method) :
    declared.Retains impls (impls.foldl Method.merge declared) := by
  induction impls using List.reverseRecOn with
  | nil => exact ⟨rfl, fun k p hp => ⟨p, hp, rfl, rfl⟩⟩
  | append_singleton l impl ih =>
      rw [List.foldl_concat]
      exact ih.merge impl

/-! ### The first methods of a type -/

/-- The implementations that a run merges into the method at index `j` of the type at place `i`. -/
def mergedInto (run : List Handover) (i j : Nat) : List Method :=
  (run.filter (·.fate == .merged i j)).map Handover.impl

/-- The methods of the type at place `i` with all that a run merges into them. -/
def enriched (run : List Handover) (i : Nat) (methods : List Method) : List Method :=
  methods.mapIdx fun j m => (mergedInto run i j).foldl Method.merge m

/-- A run of two parts merges what the first part merges, then what the second does. -/
theorem enriched_append (first second : List Handover) (i : Nat) (methods : List Method) :
    enriched (first ++ second) i methods = enriched second i (enriched first i methods) := by
  refine List.ext_getElem? fun j => ?_
  simp only [enriched, List.getElem?_mapIdx, mergedInto, List.filter_append, List.map_append,
    List.foldl_append, Option.map_map, Function.comp_def]

/-- What merges nothing into a type leaves its methods alone. -/
theorem enriched_of_ne {run : List Handover} {i : Nat}
    (hne : ∀ h ∈ run, ∀ j, h.fate ≠ .merged i j) (methods : List Method) :
    enriched run i methods = methods := by
  have hnone : ∀ j, mergedInto run i j = [] := by
    intro j
    rw [mergedInto, List.map_eq_nil_iff, List.filter_eq_nil_iff]
    exact fun h hh => by simpa using hne h hh j
  exact List.mapIdx_eq_iff.mpr fun j => by simp [hnone]

/-- One merge changes one method. -/
theorem enriched_singleton {h : Handover} {i j : Nat} (hfate : h.fate = .merged i j)
    (methods : List Method) : enriched [h] i methods = methods.modify j (·.merge h.impl) := by
  refine List.ext_getElem? fun k => ?_
  rw [enriched, List.getElem?_mapIdx, List.getElem?_modify]
  by_cases hk : j = k
  · subst hk
    simp [mergedInto, hfate]
  · simp [mergedInto, hfate, hk]

/-- **What a task does to the first methods of a type**: it merges what it hands over, and adds
methods only behind them. A type to whose methods others are added, or nothing at all, keeps its
first methods. -/
theorem take_methods_perform (dir : Directory) {pool : Pool} (t : Task) {i n : Nat} {c : TypeDecl}
    (hc : pool.types[i]? = some c) (hn : n ≤ c.methods.length) :
    ∃ c', (t.perform dir pool).types[i]? = some c' ∧ n ≤ c'.methods.length ∧
      c'.methods.take n = enriched (t.handovers dir pool.types) i (c.methods.take n) := by
  have hadded : ∀ {run : List Handover} (more : List Method),
      (∀ h ∈ run, ∀ j, h.fate ≠ .merged i j) →
      n ≤ (c.methods ++ more).length ∧
        (c.methods ++ more).take n = enriched run i (c.methods.take n) := by
    intro run more hne
    rw [enriched_of_ne hne, List.take_append_of_le_length hn, List.length_append]
    exact ⟨by omega, rfl⟩
  have hsame : ∀ {run : List Handover}, (∀ h ∈ run, ∀ j, h.fate ≠ .merged i j) →
      n ≤ c.methods.length ∧ c.methods.take n = enriched run i (c.methods.take n) :=
    fun hne => ⟨hn, (enriched_of_ne hne _).symm⟩
  cases t with
  | implementation stem impl =>
      rw [Task.perform, attachImplementation_types, Task.handovers]
      cases hfate : fateOf dir.registry pool.types impl with
      | dropped => exact ⟨c, hc, hsame (by simp)⟩
      | merged k j =>
          rw [Fate.apply, List.getElem?_modify, hc]
          by_cases hk : k = i
          · subst hk
            refine ⟨c.complete j impl, by simp, ?_, ?_⟩
            · simpa [TypeDecl.complete] using hn
            · rw [enriched_singleton rfl, TypeDecl.complete, List.take_modify]
          · refine ⟨c, by simp [hk], hsame fun h hh j' heq => ?_⟩
            obtain rfl := List.mem_singleton.mp hh
            exact hk (Fate.merged.inj heq).1
      | kept k m =>
          rw [Fate.apply, List.getElem?_modify, hc]
          by_cases hk : k = i
          · exact ⟨c.addMethods [m], by simp [hk], hadded [m] (by simp)⟩
          · exact ⟨c, by simp [hk], hsame (by simp)⟩
  | staticInit stem init =>
      rw [Task.perform, Task.handovers]
      rcases attachStaticInit_types dir.registry stem pool init with h | ⟨k, j, h⟩
      · exact ⟨c, h ▸ hc, hsame (by simp)⟩
      · rw [h, List.getElem?_modify, hc]
        by_cases hk : k = i
        · exact ⟨{ c with members := initializeMember c.members j init.value }, by simp [hk],
            hsame (by simp)⟩
        · exact ⟨c, by simp [hk], hsame (by simp)⟩
  | locals s =>
      rw [Task.perform, Task.handovers]
      rcases attachLocals_types dir.registry dir.headers dir.interfaces pool s with h | ⟨k, h⟩
      · exact ⟨c, h ▸ hc, hsame (by simp)⟩
      · rw [h, List.getElem?_modify, hc]
        by_cases hk : k = i
        · exact ⟨c.addLocals s, by simp [hk], hadded _ (by simp)⟩
        · exact ⟨c, by simp [hk], hsame (by simp)⟩

/-- **What a run does to the first methods of a type**: it merges what its record says. -/
theorem take_methods_foldl_perform (dir : Directory) (pool : Pool) (tasks : List Task) {i n : Nat}
    {c : TypeDecl} (hc : pool.types[i]? = some c) (hn : n ≤ c.methods.length) :
    ∃ c', (tasks.foldl (Task.perform dir) pool).types[i]? = some c' ∧ n ≤ c'.methods.length ∧
      c'.methods.take n = enriched (handoversFrom dir pool tasks) i (c.methods.take n) := by
  induction tasks generalizing pool c with
  | nil => exact ⟨c, hc, hn, (enriched_of_ne (by simp [handoversFrom]) _).symm⟩
  | cons t r ih =>
      obtain ⟨c₁, hc₁, hn₁, htake₁⟩ := take_methods_perform dir t hc hn
      obtain ⟨c₂, hc₂, hn₂, htake₂⟩ := ih _ hc₁ hn₁
      refine ⟨c₂, hc₂, hn₂, ?_⟩
      rw [htake₂, htake₁, handoversFrom, enriched_append]

/-! ### The types of a plan -/

section

variable {headers : List Header} {sources : List Source}

/-- Ordering the methods of a type leaves the first ones where they are. -/
theorem take_orderMethods (rank : Text → Nat) {n : Nat} {methods : List Method}
    (hn : n ≤ methods.length) : (orderMethods rank n methods).take n = methods.take n := by
  have hlength : (methods.take n).length = n := List.length_take_of_le hn
  rw [orderMethods]
  exact List.take_left' hlength

/-- The methods that a type was read with, at the end: they have what the record merges into
them. -/
theorem exists_take_typesAfter {i : Nat} {d : TypeDecl}
    (hd : (typesBefore headers sources)[i]? = some d) :
    ∃ f, (typesAfter headers sources)[i]? = some f ∧
      f.methods.take d.methods.length = enriched (handovers headers sources) i d.methods := by
  obtain ⟨c, hc, hn, htake⟩ := take_methods_foldl_perform (directoryFor headers sources)
    (poolBefore headers sources) (allTasks sources) hd (Nat.le_refl _)
  refine ⟨settle headers sources i c, ?_, ?_⟩
  · rw [getElem?_typesAfter, poolAfter, hc, Option.map_some]
  · rw [List.take_length] at htake
    rw [handovers, ← htake, settle]
    split
    · simp only [hd, Option.map_some, Option.getD_some]
      exact take_orderMethods _ hn
    · rfl

/-- The types of a plan were read from headers. -/
theorem exists_declared_of_mem_types {t : TypeDecl}
    (ht : t ∈ (Plan.ofParts headers sources).types) :
    ∃ i d, placeOf? headers sources t.name = some i ∧
      (typesBefore headers sources)[i]? = some d ∧ (typesAfter headers sources)[i]? = some t ∧
      d ∈ headers.flatMap Header.types := by
  obtain ⟨i, hplace, hafter, hlt⟩ := exists_place_of_mem_types ht
  obtain ⟨d, hd, -⟩ := exists_type_of_placeOf? hplace
  refine ⟨i, d, hplace, hd, hafter, ?_⟩
  rw [typesBefore, List.getElem?_append_left hlt] at hd
  exact ((List.mergeSort_perm _ _).flatMap_right _).subset (List.mem_of_getElem? hd)

/-- If all implementations bring bodies, none but the first is merged into a method. -/
theorem length_mergedInto_le_one (hs : ∀ s ∈ sources, s.HasBodies) (i j : Nat) :
    (mergedInto (handovers headers sources) i j).length ≤ 1 := by
  have honce : ((handovers headers sources).filter (·.fate == .merged i j)).Pairwise
      fun h k => ∀ i j, h.fate = .merged i j → k.fate ≠ .merged i j :=
    (pairwise_merged hs).filter _
  have hmerged : ∀ h ∈ (handovers headers sources).filter (·.fate == .merged i j),
      h.fate = .merged i j := fun h hh => by simpa using (List.mem_filter.mp hh).2
  rw [mergedInto, List.length_map]
  cases hfilter : (handovers headers sources).filter (·.fate == .merged i j) with
  | nil => exact Nat.zero_le 1
  | cons h r =>
      rw [hfilter] at honce hmerged
      cases r with
      | nil => exact Nat.le_refl 1
      | cons k r =>
          have hfirst := (List.pairwise_cons.mp honce).1 k List.mem_cons_self i j
          exact absurd (hmerged k (by simp)) (hfirst (hmerged h List.mem_cons_self))

/-- **What headers decide survives**, for all headers and sources: every type of a plan comes from a
header, and each of its methods that the header declared is still at its index and retains what the
header decides, whatever implementations the run has merged into it. If all implementations bring
bodies, there is at most one of them. -/
theorem retains_ofParts {t : TypeDecl} (ht : t ∈ (Plan.ofParts headers sources).types) :
    ∃ i d, placeOf? headers sources t.name = some i ∧
      (typesBefore headers sources)[i]? = some d ∧ d ∈ headers.flatMap Header.types ∧
      ∀ j m, d.methods[j]? = some m →
        (∃ final, t.methods[j]? = some final ∧
          m.Retains (mergedInto (handovers headers sources) i j) final) ∧
        ((∀ s ∈ sources, s.HasBodies) →
          (mergedInto (handovers headers sources) i j).length ≤ 1) := by
  obtain ⟨i, d, hplace, hd, hafter, hheader⟩ := exists_declared_of_mem_types ht
  refine ⟨i, d, hplace, hd, hheader, fun j m hm => ⟨?_, fun hs => length_mergedInto_le_one hs i j⟩⟩
  obtain ⟨f, hf, htake⟩ := exists_take_typesAfter hd
  obtain rfl : t = f := Option.some.inj (hafter.symm.trans hf)
  refine ⟨_, ?_, retains_foldl_merge m _⟩
  have hj : j < d.methods.length := (List.getElem?_eq_some_iff.mp hm).1
  rw [← List.getElem?_take_of_lt hj, htake, enriched, List.getElem?_mapIdx, hm, Option.map_some]

end

/-- A method `resize` of the class `Shape`, with one parameter. -/
def resizeWith (parameter : Parameter) : Method where
  name := "resize"
  owner := "Shape"
  parameters := [parameter]

/-- The method as a header declares it: with a default value, and public. -/
def resizeDeclared : Method :=
  { resizeWith { baseType := "int", name := "n", default? := some "1", key := "int" } with
    visibility := .pub }

/-- The method as a source implements it: with another name for its parameter. -/
def resizeImplemented : Method :=
  { resizeWith { baseType := "int", name := "factor", key := "int" } with
    targetFile := "Shape", body := some "grow(factor);" }

/-- The class with this one method. -/
def resizable (m : Method) : TypeDecl where
  name := "Shape"
  file := "Shape"
  methods := [m]

/-- A header that declares the class. -/
def resizeHeader : Header where
  stem := "Shape"
  types := [resizable resizeDeclared]

/-- A source with this implementation. -/
def resizeSource : Source where
  stem := "Shape"
  methods := [resizeImplemented]

/-- The implementation is merged into the declaration, which retains all but the name of its
parameter. -/
theorem retains_resize :
    ∃ t ∈ (Plan.ofParts [resizeHeader] [resizeSource]).types, ∃ final,
      t.methods[0]? = some final ∧ resizeDeclared.Retains [resizeImplemented] final ∧
      final.parameters.map Parameter.name = [("factor" : Text)] := by
  have hmem : resizable (resizeDeclared.merge resizeImplemented)
      ∈ (Plan.ofParts [resizeHeader] [resizeSource]).types := by
    decide +kernel
  have hplace : placeOf? [resizeHeader] [resizeSource] "Shape" = some 0 := by decide +kernel
  have hbefore : (typesBefore [resizeHeader] [resizeSource])[0]?
      = some (resizable resizeDeclared) := by
    decide +kernel
  have hmerged : mergedInto (handovers [resizeHeader] [resizeSource]) 0 0
      = [resizeImplemented] := by
    decide +kernel
  obtain ⟨i, d, hi, hd, -, hall⟩ := retains_ofParts hmem
  obtain rfl : 0 = i := Option.some.inj (hplace.symm.trans hi)
  obtain rfl : resizable resizeDeclared = d := Option.some.inj (hbefore.symm.trans hd)
  obtain ⟨⟨final, hfinal, hretains⟩, -⟩ := hall 0 resizeDeclared rfl
  rw [hmerged] at hretains
  refine ⟨_, hmem, final, hfinal, hretains, ?_⟩
  obtain rfl := Option.some.inj hfinal
  decide +kernel

end Sharpen
