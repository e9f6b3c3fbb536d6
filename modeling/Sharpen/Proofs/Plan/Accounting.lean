import Sharpen.Plan.Files
import Sharpen.Proofs.Plan.Progress

/-!
# Every Implementation Is Accounted For

Bringing headers and sources together loses no implementation, gives none to two methods and lets no
method take two. The record of the run says what became of each implementation, and the methods of
every type at the end are exactly those the record leads to.

The record is a list of handovers, each with the fate of one implementation: completed a
declaration, kept by a type, or left without an owner. Accounting for all means that the record
lists the implementations of all sources, that a completed method has the body of the
implementation, and that no declaration is completed twice or lost. It rests on the invariant of a
run and on bodies, without which a method could be completed again.

## Main definitions

* `Accounted` — what it means that the record accounts for every implementation.

## Main results

* `exists_progress` — the types that an implementation of the record met.
* `accounted_of_hasBodies` — it does, if every implementation and local function brings a body.
* `map_head_typesAfter` — no type changes its head, place by place.
* `exists_methods_typesAfter` — the methods of a type at the end: those it was read with, completed
  as the record says, then in some order those it has kept and some of the local functions.
* `pairwise_merged` — no two implementations complete the same method.
-/

namespace Sharpen

section

variable {headers : List Header} {sources : List Source}

/-! ### The whole run -/

/-- All local functions, in the order their sources are taken. -/
def allFunctions (sources : List Source) : List Method :=
  (sourceOrderByStem sources).flatMap Source.locals

/-- The tasks of sources with bodies bring bodies. -/
theorem hasBodies_of_mem_allTasks (hs : ∀ s ∈ sources, s.HasBodies) :
    ∀ t ∈ allTasks sources, t.HasBodies := by
  intro t ht
  obtain ⟨s, hmem, ht⟩ := List.mem_flatMap.mp ht
  have hbody := hs s (List.mem_mergeSort.mp hmem)
  simp only [Source.tasks, List.mem_append, List.mem_map, List.mem_singleton] at ht
  rcases ht with (⟨m, hm, rfl⟩ | ⟨init, -, rfl⟩) | rfl
  · exact hbody m (List.mem_append_left _ hm)
  · trivial
  · exact hbody.subset fun m hm => List.mem_append_right _ hm

/-- The local functions the tasks hand out are all there are. -/
theorem flatMap_functions_allTasks (sources : List Source) :
    (allTasks sources).flatMap Task.functions = allFunctions sources := by
  rw [allTasks, allFunctions, List.flatMap_assoc]
  refine List.flatMap_congr fun s _ => ?_
  have hmethods : (s.methods.map (Task.implementation s.stem)).flatMap Task.functions = [] :=
    List.flatMap_eq_nil_iff.mpr fun t ht => by obtain ⟨m, -, rfl⟩ := List.mem_map.mp ht; rfl
  have hinits : (s.staticInits.map (Task.staticInit s.stem)).flatMap Task.functions = [] :=
    List.flatMap_eq_nil_iff.mpr fun t ht => by obtain ⟨m, -, rfl⟩ := List.mem_map.mp ht; rfl
  rw [Source.tasks, List.flatMap_append, List.flatMap_append, hmethods, hinits,
    List.flatMap_singleton]
  rfl

/-- **The types that an implementation of the record met**: they stand as the record before it says,
and they decide its fate. -/
theorem exists_progress (hs : ∀ s ∈ sources, s.HasBodies) {done todo : List Handover} {h : Handover}
    (hrun : handovers headers sources = done ++ h :: todo) :
    ∃ types locals, Progress (typesBefore headers sources) done locals types ∧
      h.fate = fateOf (directoryFor headers sources).registry types h.impl := by
  obtain ⟨ts, us, htasks, rfl, hfate⟩ := handoversFrom_eq_append hrun
  have hbodies : ∀ t ∈ ts, t.HasBodies := fun t ht =>
    hasBodies_of_mem_allTasks hs t (htasks ▸ List.mem_append_left _ ht)
  have hp := progress_foldl (directoryFor headers sources)
    (poolBefore headers sources) (progress_nil (typesBefore headers sources)) hbodies
  exact ⟨_, _, hp, hfate⟩

/-- The types at the end of the run stand as the whole record says. -/
theorem progress_poolAfter (headers : List Header) (hs : ∀ s ∈ sources, s.HasBodies) :
    Progress (typesBefore headers sources) (handovers headers sources) (allFunctions sources)
      (poolAfter headers sources).types := by
  have hp := progress_foldl (directoryFor headers sources)
    (poolBefore headers sources) (progress_nil (typesBefore headers sources))
    (hasBodies_of_mem_allTasks hs)
  rw [flatMap_functions_allTasks] at hp
  exact hp

variable (headers sources) in
/-- The record has the implementations of the sources, each once. -/
theorem perm_impl_handovers :
    ((handovers headers sources).map Handover.impl).Perm (sources.flatMap Source.methods) := by
  have himpl : (handovers headers sources).map Handover.impl
      = (sourceOrderByStem sources).flatMap Source.methods :=
    map_impl_handoversFrom _ _ _
  rw [himpl]
  exact (List.mergeSort_perm _ _).flatMap_right _

/-- The implementations of the record are those of the sources. -/
theorem impl_mem_of_mem_handovers {k : Handover} (hk : k ∈ handovers headers sources) :
    k.impl ∈ sources.flatMap Source.methods :=
  (perm_impl_handovers headers sources).subset (List.mem_map_of_mem hk)

/-! ### The types at the end -/

/-- Ordering the methods of a type leaves a first part of the given length where it is. -/
theorem orderMethods_append (rank : Text → Nat) (l r : List Method) :
    orderMethods rank l.length (l ++ r) = l ++ r.mergeSort (sourceOrder rank) := by
  rw [orderMethods, List.take_left, List.drop_left]

/-- A type at the end is the type after the run, settled. -/
theorem getElem?_typesAfter (i : Nat) :
    (typesAfter headers sources)[i]?
      = (poolAfter headers sources).types[i]?.map (settle headers sources i) :=
  List.getElem?_mapIdx

/-- Settling changes nothing but the order of methods. -/
theorem head_settle (i : Nat) (d : TypeDecl) : (settle headers sources i d).head = d.head := by
  rw [settle]
  split <;> rfl

variable (headers sources) in
/-- **No type changes its head**, place by place. -/
theorem map_head_typesAfter :
    (typesAfter headers sources).map TypeDecl.head
      = (typesBefore headers sources).map TypeDecl.head := by
  have hpool : (poolAfter headers sources).types.map TypeDecl.head
      = (typesBefore headers sources).map TypeDecl.head :=
    map_head_foldl_perform (directoryFor headers sources) (poolBefore headers sources) _
  rw [← hpool]
  refine List.ext_getElem? fun i => ?_
  rw [List.getElem?_map, List.getElem?_map, getElem?_typesAfter, Option.map_map]
  exact congrArg (fun g => Option.map g _) (funext fun d => head_settle i d)

/-- A type that was read is there at the end, with its head. -/
theorem exists_typesAfter {i : Nat} {d : TypeDecl}
    (hd : (typesBefore headers sources)[i]? = some d) :
    ∃ f, (typesAfter headers sources)[i]? = some f ∧ f.head = d.head := by
  have hhead : ((typesAfter headers sources).map TypeDecl.head)[i]?
      = ((typesBefore headers sources).map TypeDecl.head)[i]? := by rw [map_head_typesAfter]
  rw [List.getElem?_map, List.getElem?_map, hd] at hhead
  exact Option.map_eq_some_iff.mp hhead

/-- **The methods of a type at the end**: those it was read with, completed as the record says, then
in some order those it has kept and some of the local functions. -/
theorem exists_methods_typesAfter (hs : ∀ s ∈ sources, s.HasBodies) {i : Nat} {d : TypeDecl}
    (hd : (typesBefore headers sources)[i]? = some d) :
    ∃ (f : TypeDecl) (rest ls : List Method),
      (typesAfter headers sources)[i]? = some f ∧ f.head = d.head ∧
      f.methods = completed (handovers headers sources) i d.methods ++ rest ∧
      ls.Sublist (allFunctions sources) ∧
      rest.Perm (keptAt (handovers headers sources) i ++ ls.map (·.ownedBy d.name)) := by
  have hp := progress_poolAfter headers hs
  obtain ⟨c, hc, hhead⟩ := hp.exists_type hd
  obtain ⟨extra, ls, hmethods, -, hls, hperm⟩ := hp.grown i d c hd hc
  have hname : c.name = d.name := congrArg Prod.fst hhead
  have hafter : (typesAfter headers sources)[i]? = some (settle headers sources i c) := by
    rw [getElem?_typesAfter, hc, Option.map_some]
  rw [hname] at hperm
  have hsettled : ∃ rest, (settle headers sources i c).methods
      = completed (handovers headers sources) i d.methods ++ rest ∧ rest.Perm extra := by
    rw [settle]
    split
    · have hlen : ((typesBefore headers sources)[i]?.map (·.methods.length)).getD 0
          = (completed (handovers headers sources) i d.methods).length := by
        simp [hd, completed]
      rw [hlen, hmethods]
      exact ⟨_, orderMethods_append _ _ _, List.mergeSort_perm _ _⟩
    · exact ⟨extra, hmethods, List.Perm.refl _⟩
  obtain ⟨rest, hrest, hsort⟩ := hsettled
  exact ⟨_, rest, ls, hafter, (head_settle i c).trans hhead, hrest, hls, hsort.trans hperm⟩

/-! ### Reports -/

/-- No task takes a report back. -/
theorem notices_perform (dir : Directory) (pool : Pool) (t : Task) :
    pool.notices <+: (t.perform dir pool).notices := by
  cases t with
  | implementation stem impl =>
      rw [Task.perform, attachImplementation]
      cases dir.registry.find? impl.owner with
      | none => exact List.prefix_append _ _
      | some owner =>
          dsimp only
          rcases findDeclaration dir.registry pool.types owner impl with ⟨_ | _ | _ | _, i⟩
          · exact List.prefix_refl _
          · exact List.prefix_append _ _
          · exact List.prefix_append _ _
          · exact List.prefix_append _ _
  | staticInit stem init =>
      rw [Task.perform, attachStaticInit]
      split
      · exact List.prefix_append _ _
      · exact List.prefix_refl _
  | locals s =>
      rw [Task.perform, attachLocals]
      split
      · split
        · exact List.prefix_refl _
        · exact List.prefix_append _ _
      · exact List.prefix_refl _

/-- No run does. -/
theorem notices_foldl_perform (dir : Directory) (pool : Pool) (tasks : List Task) :
    pool.notices <+: (tasks.foldl (Task.perform dir) pool).notices := by
  induction tasks generalizing pool with
  | nil => exact List.prefix_refl _
  | cons t r ih => exact (notices_perform dir pool t).trans (ih _)

/-- A dropped implementation is reported. -/
theorem unknownOwner_mem_warnings {h : Handover} (hmem : h ∈ handovers headers sources)
    (hfate : h.fate = .dropped) :
    (PlanNotice.unknownOwner h.stem h.impl.owner h.impl.name).message
      ∈ (Plan.ofParts headers sources).warnings := by
  obtain ⟨done, todo, hrun⟩ := List.append_of_mem hmem
  obtain ⟨ts, us, htasks, -, hdecided⟩ := handoversFrom_eq_append hrun
  rw [hfate, eq_comm, fateOf_eq_dropped_iff] at hdecided
  have hpool : PlanNotice.unknownOwner h.stem h.impl.owner h.impl.name
      ∈ (poolAfter headers sources).notices := by
    rw [poolAfter, htasks, List.foldl_append, List.foldl_cons]
    refine (notices_foldl_perform _ _ _).subset ?_
    rw [Task.perform, attachImplementation, hdecided]
    exact List.mem_append_right _ (List.mem_singleton_self _)
  refine List.mem_map.mpr ⟨_, List.mem_filter.mpr ⟨?_, rfl⟩, rfl⟩
  rw [Plan.ofParts, reconcileTypes_eq]
  exact List.mem_append_left _ (List.mem_append_left _ hpool)

/-! ### Where the types at the end are -/

/-- The registry of a run sends a name to its place. -/
theorem find?_directoryFor (name : Text) :
    (directoryFor headers sources).registry.find? name = placeOf? headers sources name :=
  Registry.find?_ofTypes _ name

/-- A place that a name stands for has a type of that name. -/
theorem exists_type_of_placeOf? {name : Text} {i : Nat}
    (h : placeOf? headers sources name = some i) :
    ∃ d, (typesBefore headers sources)[i]? = some d ∧ d.name = name := by
  obtain ⟨hlt, hname, -⟩ := List.findIdx?_eq_some_iff_getElem.mp h
  exact ⟨_, List.getElem?_eq_getElem hlt, by simpa using hname⟩

/-- The type at the end that a name stands for has that name. -/
theorem name_of_typesAfter {name : Text} {i : Nat} {t : TypeDecl}
    (hplace : placeOf? headers sources name = some i)
    (hafter : (typesAfter headers sources)[i]? = some t) : t.name = name := by
  obtain ⟨d, hd, rfl⟩ := exists_type_of_placeOf? hplace
  obtain ⟨f, hf, hhead⟩ := exists_typesAfter hd
  obtain rfl : t = f := Option.some.inj (hafter.symm.trans hf)
  exact congrArg Prod.fst hhead

/-- The types of a plan are types at the end that their names stand for, at places of headers. -/
theorem exists_place_of_mem_types {t : TypeDecl}
    (ht : t ∈ (Plan.ofParts headers sources).types) :
    ∃ i, placeOf? headers sources t.name = some i ∧
      (typesAfter headers sources)[i]? = some t ∧
      i < ((headerOrder headers).flatMap Header.types).length := by
  rw [Plan.ofParts, reconcileTypes_eq] at ht
  obtain ⟨i, hi, hafter⟩ := List.mem_filterMap.mp ht
  obtain ⟨hentries, hlt⟩ := List.mem_filter.mp hi
  obtain ⟨⟨name, k⟩, hentry, rfl⟩ := List.mem_map.mp hentries
  have hplace : placeOf? headers sources name = some k :=
    (Registry.mem_entries_ofTypes _ _).mp hentry
  exact ⟨k, (name_of_typesAfter hplace hafter).symm ▸ hplace, hafter, by simpa using hlt⟩

/-- The types of a plan are types at the end that their names stand for. -/
theorem placeOf?_of_mem_types {t : TypeDecl} (ht : t ∈ (Plan.ofParts headers sources).types) :
    ∃ i, placeOf? headers sources t.name = some i ∧
      (typesAfter headers sources)[i]? = some t := by
  obtain ⟨i, hplace, hafter, -⟩ := exists_place_of_mem_types ht
  exact ⟨i, hplace, hafter⟩

/-- Giving the sources their types back takes them from a row of places. -/
theorem flatMap_structs_restoreStructs (types : List TypeDecl) (place : Nat) (l : List Source) :
    (restoreStructs types place l).flatMap Source.structs
      = (types.drop place).take (l.flatMap Source.structs).length := by
  induction l generalizing place with
  | nil => rfl
  | cons s r ih =>
      rw [restoreStructs, List.flatMap_cons, ih, List.flatMap_cons, List.length_append,
        List.take_add, List.drop_drop]

/-- The types that the sources define are the types at the end behind those of the headers. -/
theorem flatMap_structs_reconcileTypes :
    (reconcileTypes headers sources).sources.flatMap Source.structs
      = (typesAfter headers sources).drop
          ((headerOrder headers).flatMap Header.types).length := by
  have hlen := congrArg List.length (map_head_typesAfter headers sources)
  rw [List.length_map, List.length_map, typesBefore, List.length_append] at hlen
  rw [reconcileTypes_eq, flatMap_structs_restoreStructs]
  refine List.take_of_length_le ?_
  rw [List.length_drop]
  omega

/-! ### Accounting -/

variable (headers sources) in
/-- **The record accounts for every implementation.** Each has exactly one of three fates, and the
fates of all of them say which methods the types have at the end. -/
structure Accounted : Prop where
  /-- The record has each implementation once, in the order of the plan. -/
  all : (handovers headers sources).map Handover.impl
    = (Plan.ofParts headers sources).implementations
  /-- An implementation is dropped exactly when its owner's name stands for no type. -/
  dropped : ∀ h ∈ handovers headers sources,
    (h.fate = .dropped ↔ placeOf? headers sources h.impl.owner = none)
  /-- Every dropped implementation leaves a warning. -/
  warned : ∀ h ∈ handovers headers sources, h.fate = .dropped →
    (PlanNotice.unknownOwner h.stem h.impl.owner h.impl.name).message
      ∈ (Plan.ofParts headers sources).warnings
  /-- An implementation that was merged completed a declaration without a body, of its owner or of
  an interface that the owner lists as a base, and its body is the one there at the end. -/
  merged : ∀ h ∈ handovers headers sources, ∀ i j, h.fate = .merged i j →
    ∃ owner o d f declared final,
      placeOf? headers sources h.impl.owner = some owner ∧
      (typesBefore headers sources)[owner]? = some o ∧
      (typesBefore headers sources)[i]? = some d ∧
      (i = owner ∨
        d.isInterface = true ∧ ∃ base ∈ o.bases, placeOf? headers sources base = some i) ∧
      d.methods[j]? = some declared ∧ declared.body = none ∧
      (typesAfter headers sources)[i]? = some f ∧ f.methods[j]? = some final ∧
      final.body = h.impl.body
  /-- An implementation that was kept stays with its owner, as it is or marked as ambiguous. -/
  kept : ∀ h ∈ handovers headers sources, ∀ i m, h.fate = .kept i m →
    placeOf? headers sources h.impl.owner = some i ∧ (m = h.impl ∨ m = h.impl.markAmbiguous)
  /-- No two implementations completed the same declaration. -/
  once : (handovers headers sources).Pairwise fun h k =>
    ∀ i j, h.fate = .merged i j → k.fate ≠ .merged i j
  /-- The methods of every type at the end: all that it was read with, in their places and completed
  as the record says, then, each once, the implementations it has kept, and local functions. -/
  methods : ∀ i d, (typesBefore headers sources)[i]? = some d →
    ∃ (f : TypeDecl) (rest functions : List Method),
      (typesAfter headers sources)[i]? = some f ∧ f.name = d.name ∧
      f.methods = completed (handovers headers sources) i d.methods ++ rest ∧
      functions.Sublist (allFunctions sources) ∧
      rest.Perm (keptAt (handovers headers sources) i ++ functions.map (·.ownedBy d.name))
  /-- The types of the plan are the types at the end that their names stand for. -/
  retained : ∀ t ∈ (Plan.ofParts headers sources).types,
    ∃ i, placeOf? headers sources t.name = some i ∧ (typesAfter headers sources)[i]? = some t
  /-- The types that sources define stand behind those of the headers. -/
  embedded : (reconcileTypes headers sources).sources.flatMap Source.structs
    = (typesAfter headers sources).drop ((headerOrder headers).flatMap Header.types).length

/-- What an implementation completes was read without a body and is open until then. -/
theorem exists_declared_of_merged (hs : ∀ s ∈ sources, s.HasBodies) {done todo : List Handover}
    {h : Handover} {i j : Nat} (hrun : handovers headers sources = done ++ h :: todo)
    (hfate : h.fate = .merged i j) :
    ∃ owner o d m, placeOf? headers sources h.impl.owner = some owner ∧
      (typesBefore headers sources)[owner]? = some o ∧
      (typesBefore headers sources)[i]? = some d ∧ d.methods[j]? = some m ∧
      m.name = h.impl.name ∧ m.body = none ∧ completion? done i j = none ∧
      (i = owner ∨ d.isInterface = true ∧ m.isStatic = true ∧
        ∃ base ∈ o.bases, placeOf? headers sources base = some i) := by
  obtain ⟨types, locals, hp, hdecided⟩ := exists_progress hs hrun
  rw [hfate, eq_comm] at hdecided
  obtain ⟨owner, o, c, m, howner, ho, hc, hm, hname, hbody, hwhere⟩ :=
    exists_of_fateOf_eq_merged hdecided
  obtain ⟨o', ho', heado⟩ := hp.exists_type_before ho
  obtain ⟨d, hd, headd⟩ := hp.exists_type_before hc
  obtain ⟨hread, hopen⟩ := hp.not_completed hd hc hm hbody
  have hbases : o.bases = o'.bases := congrArg (fun t => t.2.2.1) heado
  have hkind : c.isInterface = d.isInterface := congrArg (fun t => t.2.1 == .interfaceType) headd
  simp only [find?_directoryFor] at howner hwhere
  rw [hbases, hkind] at hwhere
  exact ⟨owner, o', d, m, howner, ho', hd, hread, hname, hbody, hopen, hwhere⟩

/-- A method is open exactly when no implementation of the record completed it. -/
theorem completion?_eq_none_iff {run : List Handover} {i j : Nat} :
    completion? run i j = none ↔ ∀ h ∈ run, h.fate ≠ .merged i j := by
  simp [completion?]

/-- The first implementation that completes a method is the one the record gives for it. -/
theorem completion?_append_cons {done todo : List Handover} {h : Handover} {i j : Nat}
    (hopen : completion? done i j = none) (hfate : h.fate = .merged i j) :
    completion? (done ++ h :: todo) i j = some h.impl := by
  have hnone : done.find? (·.fate == .merged i j) = none := Option.map_eq_none_iff.mp hopen
  rw [completion?, List.find?_append, hnone, Option.none_or,
    List.find?_cons_of_pos (by simp [hfate]), Option.map_some]

/-- **No two implementations complete the same method.** -/
theorem pairwise_merged (hs : ∀ s ∈ sources, s.HasBodies) :
    (handovers headers sources).Pairwise fun h k =>
      ∀ i j, h.fate = .merged i j → k.fate ≠ .merged i j := by
  refine List.pairwise_iff_getElem.mpr fun a b ha hb hab i j hmerged hagain => ?_
  have hrun : handovers headers sources = (handovers headers sources).take b
      ++ (handovers headers sources)[b] :: (handovers headers sources).drop (b + 1) := by
    rw [← List.drop_eq_getElem_cons hb, List.take_append_drop]
  obtain ⟨-, -, -, -, -, -, -, -, -, -, hopen, -⟩ := exists_declared_of_merged hs hrun hagain
  have hearlier : (handovers headers sources)[a] ∈ (handovers headers sources).take b :=
    List.mem_take_iff_getElem.mpr ⟨a, by omega, rfl⟩
  exact completion?_eq_none_iff.mp hopen _ hearlier hmerged

/-- **Every implementation is accounted for**, for all headers and all sources whose methods have
bodies: it is dropped with a warning, or merged into exactly one declaration that had no body, or
kept by its owner; no declaration takes two, and none is lost. -/
theorem accounted_of_hasBodies (hs : ∀ s ∈ sources, s.HasBodies) : Accounted headers sources where
  all := by
    rw [Plan.ofParts, reconcileTypes_eq]
    exact map_impl_handoversFrom _ _ _
  dropped := by
    intro h hmem
    obtain ⟨done, todo, hrun⟩ := List.append_of_mem hmem
    obtain ⟨ts, us, -, -, hdecided⟩ := handoversFrom_eq_append hrun
    rw [hdecided, fateOf_eq_dropped_iff, find?_directoryFor]
  warned := fun h hmem hfate => unknownOwner_mem_warnings hmem hfate
  merged := by
    intro h hmem i j hfate
    obtain ⟨done, todo, hrun⟩ := List.append_of_mem hmem
    obtain ⟨owner, o, d, m, howner, ho, hd, hm, -, hbody, hopen, hwhere⟩ :=
      exists_declared_of_merged hs hrun hfate
    obtain ⟨f, rest, ls, hf, -, hmethods, -, -⟩ := exists_methods_typesAfter hs hd
    have hfinal : f.methods[j]? = some (m.merge h.impl) := by
      have hj : j < (completed (handovers headers sources) i d.methods).length := by
        simpa [completed] using (List.getElem?_eq_some_iff.mp hm).1
      rw [hmethods, List.getElem?_append_left hj, completed, List.getElem?_mapIdx, hm, hrun,
        completion?_append_cons hopen hfate]
      rfl
    refine ⟨owner, o, d, f, m, _, howner, ho, hd, ?_, hm, hbody, hf, hfinal, rfl⟩
    exact hwhere.imp_right fun hbase => ⟨hbase.1, hbase.2.2⟩
  kept := by
    intro h hmem i m hfate
    obtain ⟨done, todo, hrun⟩ := List.append_of_mem hmem
    obtain ⟨ts, us, -, -, hdecided⟩ := handoversFrom_eq_append hrun
    rw [hfate, eq_comm] at hdecided
    obtain ⟨hplace, hm⟩ := fateOf_eq_kept hdecided
    exact ⟨(find?_directoryFor h.impl.owner).symm.trans hplace, hm⟩
  once := pairwise_merged hs
  methods := by
    intro i d hd
    obtain ⟨f, rest, ls, hf, hhead, hmethods, hls, hperm⟩ := exists_methods_typesAfter hs hd
    exact ⟨f, rest, ls, hf, congrArg Prod.fst hhead, hmethods, hls, hperm⟩
  retained := fun _ ht => placeOf?_of_mem_types ht
  embedded := flatMap_structs_reconcileTypes

end

/-- A header with one class, which declares one method. -/
def shapeHeader : Header where
  stem := "shape"
  types := [{ name := "Shape", file := "shape", methods := [{ name := "area" }] }]

/-- A source that implements this method twice, and one of a class that nothing declares. -/
def shapeSource : Source where
  stem := "shape"
  methods := [
    { name := "area", owner := "Shape", targetFile := "shape", body := some "return 1;" },
    { name := "area", owner := "Shape", targetFile := "shape", body := some "return 2;" },
    { name := "area", owner := "Circle", targetFile := "shape", body := some "return 3;" }]

/-- All three fates in one run: the first implementation completes the declaration, the class keeps
the second, and the third is dropped. -/
theorem accounted_shape :
    (∀ s ∈ [shapeSource], s.HasBodies) ∧
      (handovers [shapeHeader] [shapeSource]).map Handover.fate
        = [.merged 0 0,
           .kept 0 { name := "area", owner := "Shape", targetFile := "shape",
                     body := some "return 2;" },
           .dropped] ∧
      Accounted [shapeHeader] [shapeSource] := by
  have hs : ∀ s ∈ [shapeSource], s.HasBodies := by decide
  exact ⟨hs, by decide +kernel, accounted_of_hasBodies hs⟩

end Sharpen
