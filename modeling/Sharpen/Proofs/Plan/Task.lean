import Sharpen.Proofs.Plan.Pairing

/-!
# Handing Out, Task by Task

Bringing headers and sources together hands out one thing after the other: implementations, static
initializers, and the local functions and constants of a source. This module spells the whole run
out as a list of tasks that are performed on the pool, and follows what becomes of each
implementation.

The tasks of a source are its implementations, its initializers and what it has for the owner of its
local functions. Performing a task changes the pool, and the directory that it is looked up in stays
the same, so a run is a fold over the tasks. For implementations, what happens is named before it is
done: the fate is a function of the pool, and the change of the types is a function of the fate.

## Main definitions

* `Task`, `Task.perform` — one thing to hand out and what handing it out does; `foldl_attachSource`
  says that handing out sources is performing their tasks.
* `Fate`, `fateOf` — what becomes of an implementation; `attachImplementation_types` says that the
  fate decides what happens to the types.
* `Handover`, `handoversFrom` — the implementations of a run with their fates, in order;
  `handoversFrom_eq_append` finds the pool that an implementation met.
* `Directory` — what handing out looks things up in: the types names stand for, the headers, and the
  names of the interfaces.
* `Source.tasks` — what a source has to be handed out, in order.

## Main results

* `reconcileTypes_eq` — the result of bringing headers and sources together in these terms.
* `exists_of_fateOf_eq_merged` — what an implementation may complete: a method of its name that has
  no body, either of its owner, or a static one of an interface that its owner lists as a base.
-/

namespace Sharpen

/-! ### Tasks -/

/-- What handing out looks things up in: the types names stand for, the headers, and the names of
the interfaces. -/
structure Directory where
  registry : Registry
  headers : List PlacedHeader
  interfaces : List Text

/-- One thing to hand out. -/
inductive Task where
  /-- An implementation of the source `stem`. -/
  | implementation (stem : Text) (impl : Method)
  /-- A static initializer of the source `stem`. -/
  | staticInit (stem : Text) (init : StaticInit)
  /-- The local functions and constants of a source. -/
  | locals (source : Source)

/-- Hands one thing out. -/
def Task.perform (dir : Directory) (pool : Pool) : Task → Pool
  | .implementation stem impl => attachImplementation dir.registry stem pool impl
  | .staticInit stem init => attachStaticInit dir.registry stem pool init
  | .locals source => attachLocals dir.registry dir.headers dir.interfaces pool source

/-- What a source has to be handed out, in order. -/
def Source.tasks (s : Source) : List Task :=
  s.methods.map (.implementation s.stem) ++ s.staticInits.map (.staticInit s.stem) ++ [.locals s]

/-- Handing out sources is performing their tasks. -/
theorem foldl_attachSource (dir : Directory) (sources : List Source) (pool : Pool) :
    sources.foldl (attachSource dir.registry dir.headers dir.interfaces) pool
      = (sources.flatMap Source.tasks).foldl (Task.perform dir) pool := by
  induction sources generalizing pool with
  | nil => rfl
  | cons s r ih =>
      rw [List.foldl_cons, List.flatMap_cons, List.foldl_append, ih]
      simp only [Source.tasks, List.foldl_append, List.foldl_map, List.foldl_cons, List.foldl_nil]
      rfl

/-! ### Fates -/

/-- What becomes of an implementation. -/
inductive Fate where
  /-- No type has the name of its owner. -/
  | dropped
  /-- It completes the method at `index` of the type at `place`. -/
  | merged (place index : Nat)
  /-- It stays with the type at `place`, as `method`. -/
  | kept (place : Nat) (method : Method)
deriving DecidableEq

/-- An implementation with the comment that marks it as ambiguous. -/
def Method.markAmbiguous (m : Method) : Method :=
  { m with sourceComments := m.sourceComments ++ [ambiguousComment] }

/-- What becomes of an implementation when the types are as given. -/
def fateOf (registry : Registry) (types : List TypeDecl) (impl : Method) : Fate :=
  match registry.find? impl.owner with
  | none => .dropped
  | some owner =>
    match findDeclaration registry types owner impl with
    | (.exact j, i) | (.nameOnly j, i) => .merged i j
    | (.ambiguous, _) => .kept owner impl.markAmbiguous
    | (.absent, _) => .kept owner impl

/-- A type one of whose methods is completed by an implementation. -/
def TypeDecl.complete (d : TypeDecl) (j : Nat) (impl : Method) : TypeDecl :=
  { d with methods := d.methods.modify j (·.merge impl) }

/-- A type with more methods. -/
def TypeDecl.addMethods (d : TypeDecl) (ms : List Method) : TypeDecl :=
  { d with methods := d.methods ++ ms }

/-- What the fate of an implementation does to the types. -/
def Fate.apply (impl : Method) (types : List TypeDecl) : Fate → List TypeDecl
  | .dropped => types
  | .merged i j => types.modify i (·.complete j impl)
  | .kept i m => types.modify i (·.addMethods [m])

/-- **The fate decides**: handing out an implementation does to the types what its fate says. -/
theorem attachImplementation_types (registry : Registry) (stem : Text) (pool : Pool)
    (impl : Method) :
    (attachImplementation registry stem pool impl).types
      = (fateOf registry pool.types impl).apply impl pool.types := by
  rw [attachImplementation, fateOf]
  cases registry.find? impl.owner with
  | none => rfl
  | some owner =>
      dsimp only
      rcases findDeclaration registry pool.types owner impl with ⟨_ | _ | _ | _, i⟩ <;> rfl

/-- An implementation is dropped exactly when its owner's name stands for no type. -/
theorem fateOf_eq_dropped_iff {registry : Registry} {types : List TypeDecl} {impl : Method} :
    fateOf registry types impl = .dropped ↔ registry.find? impl.owner = none := by
  rw [fateOf]
  cases registry.find? impl.owner with
  | none => simp
  | some owner =>
      dsimp only
      rcases findDeclaration registry types owner impl with ⟨_ | _ | _ | _, i⟩ <;> simp

/-- An implementation that is kept stays with its owner, as it is or marked as ambiguous. -/
theorem fateOf_eq_kept {registry : Registry} {types : List TypeDecl} {impl m : Method} {i : Nat}
    (h : fateOf registry types impl = .kept i m) :
    registry.find? impl.owner = some i ∧ (m = impl ∨ m = impl.markAmbiguous) := by
  rw [fateOf] at h
  cases howner : registry.find? impl.owner with
  | none => simp [howner] at h
  | some owner =>
      simp only [howner] at h
      rcases hfind : findDeclaration registry types owner impl with ⟨_ | _ | _ | _, k⟩ <;>
        simp only [hfind, reduceCtorEq, Fate.kept.injEq] at h
      · exact ⟨congrArg some h.1, Or.inr h.2.symm⟩
      · exact ⟨congrArg some h.1, Or.inl h.2.symm⟩

/-- The owner of an implementation that completes a method, and the pairing that was found. -/
theorem fateOf_eq_merged {registry : Registry} {types : List TypeDecl} {impl : Method} {i j : Nat}
    (h : fateOf registry types impl = .merged i j) :
    ∃ owner p, registry.find? impl.owner = some owner ∧
      findDeclaration registry types owner impl = (p, i) ∧ p.index? = some j := by
  rw [fateOf] at h
  cases howner : registry.find? impl.owner with
  | none => simp [howner] at h
  | some owner =>
      simp only [howner] at h
      rcases hfind : findDeclaration registry types owner impl with ⟨_ | _ | _ | _, k⟩ <;>
        simp only [hfind, reduceCtorEq, Fate.merged.injEq] at h
      · obtain ⟨rfl, rfl⟩ := h
        exact ⟨owner, _, rfl, hfind, rfl⟩
      · obtain ⟨rfl, rfl⟩ := h
        exact ⟨owner, _, rfl, hfind, rfl⟩

/-- What an implementation finds with its owner decides its fate. -/
theorem fateOf_of_matchAmong {registry : Registry} {types : List TypeDecl} {impl : Method}
    {owner j : Nat} {o : TypeDecl} {p : Pairing} (howner : registry.find? impl.owner = some owner)
    (ho : types[owner]? = some o) (hmatch : matchAmong o.methods awaitsBody impl = p)
    (hp : p.index? = some j) : fateOf registry types impl = .merged owner j := by
  rw [fateOf, howner]
  simp only [findDeclaration_of_index ho hmatch hp]
  cases p with
  | exact i => rw [Option.some.inj hp]
  | nameOnly i => rw [Option.some.inj hp]
  | ambiguous => cases hp
  | absent => cases hp

/-- An implementation that completes a method of its owner which waits for a body and has its name
was paired with the methods of the owner. -/
theorem matchAmong_of_fateOf_eq_merged {registry : Registry} {types : List TypeDecl}
    {impl m : Method} {owner j : Nat} {o : TypeDecl}
    (h : fateOf registry types impl = .merged owner j)
    (howner : registry.find? impl.owner = some owner) (ho : types[owner]? = some o)
    (hm : m ∈ o.methods) (hname : isNamesake awaitsBody impl m = true) :
    (matchAmong o.methods awaitsBody impl).index? = some j := by
  obtain ⟨owner', p, howner', hfind, hp⟩ := fateOf_eq_merged h
  obtain rfl : owner = owner' := Option.some.inj (howner.symm.trans howner')
  obtain ⟨o', ho', hwhere⟩ := findDeclaration_index hfind hp
  obtain rfl : o = o' := Option.some.inj (ho.symm.trans ho')
  rcases hwhere with ⟨-, hmatch⟩ | ⟨habsent, -⟩
  · rw [hmatch, hp]
  · simp [isNamesake_of_matchAmong_eq_absent habsent m hm] at hname

/-- **What an implementation may complete**: a method of its name that has no body, either of its
owner, or a static one of an interface that its owner lists as a base. -/
theorem exists_of_fateOf_eq_merged {registry : Registry} {types : List TypeDecl} {impl : Method}
    {i j : Nat} (h : fateOf registry types impl = .merged i j) :
    ∃ owner o d m, registry.find? impl.owner = some owner ∧ types[owner]? = some o ∧
      types[i]? = some d ∧ d.methods[j]? = some m ∧ m.name = impl.name ∧ m.body = none ∧
      (i = owner ∨ d.isInterface = true ∧ m.isStatic = true ∧
        ∃ base ∈ o.bases, registry.find? base = some i) := by
  obtain ⟨owner, p, howner, hfind, hp⟩ := fateOf_eq_merged h
  obtain ⟨o, ho, hwhere⟩ := findDeclaration_index hfind hp
  rcases hwhere with ⟨rfl, hmatch⟩ | ⟨-, base, hbase, d, hplace, hd, hinterface, hmatch⟩
  · obtain ⟨m, hm, hawaits, hname⟩ := matchAmong_index (hmatch ▸ hp)
    simp only [awaitsBody, Bool.and_eq_true, Option.isNone_iff_eq_none] at hawaits
    exact ⟨i, o, o, m, howner, ho, ho, hm, hname, hawaits.1.2, Or.inl rfl⟩
  · obtain ⟨m, hm, hawaits, hname⟩ := matchAmong_index (hmatch ▸ hp)
    simp only [awaitsStaticBody, Bool.and_eq_true, Option.isNone_iff_eq_none] at hawaits
    exact ⟨owner, o, d, m, howner, ho, hd, hm, hname, hawaits.2,
      Or.inr ⟨hinterface, hawaits.1, base, hbase, hplace⟩⟩

/-! ### Runs -/

/-- An implementation of the source `stem` with what became of it. -/
structure Handover where
  stem : Text
  impl : Method
  fate : Fate
deriving DecidableEq

/-- What a task hands over when the types are as given; only implementations are followed. -/
def Task.handovers (dir : Directory) (types : List TypeDecl) : Task → List Handover
  | .implementation stem impl => [⟨stem, impl, fateOf dir.registry types impl⟩]
  | .staticInit _ _ | .locals _ => []

/-- The implementations among the tasks of a run that starts from `pool`, with what becomes of
them. -/
def handoversFrom (dir : Directory) : Pool → List Task → List Handover
  | _, [] => []
  | pool, t :: r => t.handovers dir pool.types ++ handoversFrom dir (t.perform dir pool) r

/-- A run is followed piece by piece. -/
theorem handoversFrom_append (dir : Directory) (pool : Pool) (ts us : List Task) :
    handoversFrom dir pool (ts ++ us)
      = handoversFrom dir pool ts ++ handoversFrom dir (ts.foldl (Task.perform dir) pool) us := by
  induction ts generalizing pool with
  | nil => rfl
  | cons t r ih => rw [List.cons_append, handoversFrom, handoversFrom, ih, List.append_assoc,
      List.foldl_cons]

/-- **The pool that an implementation met**: what stands before it in the record of a run is the
record of the tasks before it, and its fate is decided by what they left. -/
theorem handoversFrom_eq_append {dir : Directory} {pool : Pool} {tasks : List Task}
    {done todo : List Handover} {h : Handover}
    (hrun : handoversFrom dir pool tasks = done ++ h :: todo) :
    ∃ ts us, tasks = ts ++ .implementation h.stem h.impl :: us ∧
      done = handoversFrom dir pool ts ∧
      h.fate = fateOf dir.registry (ts.foldl (Task.perform dir) pool).types h.impl := by
  induction tasks generalizing pool done with
  | nil => simp [handoversFrom] at hrun
  | cons t r ih =>
      have hbehind : ∀ done', handoversFrom dir (t.perform dir pool) r = done' ++ h :: todo →
          done = t.handovers dir pool.types ++ done' →
          ∃ ts us, t :: r = ts ++ .implementation h.stem h.impl :: us ∧
            done = handoversFrom dir pool ts ∧
            h.fate = fateOf dir.registry (ts.foldl (Task.perform dir) pool).types h.impl := by
        intro done' hrest hdone
        obtain ⟨ts, us, rfl, rfl, hfate⟩ := ih hrest
        exact ⟨t :: ts, us, rfl, hdone, hfate⟩
      rw [handoversFrom] at hrun
      cases t with
      | staticInit stem init => exact hbehind done hrun rfl
      | locals source => exact hbehind done hrun rfl
      | implementation stem impl =>
          cases done with
          | nil =>
              obtain ⟨rfl, -⟩ := List.cons.inj hrun
              exact ⟨[], r, rfl, rfl, rfl⟩
          | cons first done =>
              obtain ⟨rfl, hrest⟩ := List.cons.inj hrun
              exact hbehind done hrest rfl

/-- The implementations that the tasks of sources hand over. -/
theorem map_impl_handoversFrom (dir : Directory) (pool : Pool) (sources : List Source) :
    (handoversFrom dir pool (sources.flatMap Source.tasks)).map Handover.impl
      = sources.flatMap Source.methods := by
  have hmethods : ∀ stem (methods : List Method) pool,
      (handoversFrom dir pool (methods.map (.implementation stem))).map Handover.impl
        = methods := by
    intro stem methods
    induction methods with
    | nil => exact fun _ => rfl
    | cons m r ih => exact fun pool => congrArg (m :: ·) (ih _)
  have hinits : ∀ stem (inits : List StaticInit) pool,
      handoversFrom dir pool (inits.map (.staticInit stem)) = [] := by
    intro stem inits
    induction inits with
    | nil => exact fun _ => rfl
    | cons init r ih => exact fun pool => ih _
  induction sources generalizing pool with
  | nil => rfl
  | cons s r ih =>
      rw [List.flatMap_cons, List.flatMap_cons, handoversFrom_append, List.map_append, ih,
        Source.tasks, handoversFrom_append, handoversFrom_append, hinits, List.append_nil,
        List.map_append, hmethods]
      simp [handoversFrom, Task.handovers]

/-! ### Headers and sources brought together -/

section

variable (headers : List Header) (sources : List Source)

/-- The headers in the order they are taken. -/
def headerOrder : List Header :=
  headers.mergeSort fun a b => Text.precedes a.stem b.stem

/-- The sources in the order they are taken. -/
def sourceOrderByStem : List Source :=
  sources.mergeSort fun a b => Text.precedes a.stem b.stem

/-- All types as they were read, those of the headers first. -/
def typesBefore : List TypeDecl :=
  (headerOrder headers).flatMap Header.types ++ (sourceOrderByStem sources).flatMap Source.structs

/-- The place of the type that a name stands for: the first one that has it. -/
def placeOf? (name : Text) : Option Nat :=
  (typesBefore headers sources).findIdx? (·.name == name)

/-- What the run for the headers and sources looks things up in. -/
def directoryFor : Directory where
  registry := Registry.ofTypes (typesBefore headers sources)
  headers := placeHeaders 0 (headerOrder headers)
  interfaces := ((Registry.ofTypes (typesBefore headers sources)).entries.filter fun e =>
    (typesBefore headers sources)[e.2]?.any TypeDecl.isInterface).map Prod.fst

/-- The pool the run starts from. -/
def poolBefore : Pool where
  types := typesBefore headers sources
  notices := repeatedNotices (headerOrder headers) (directoryFor headers sources).registry

/-- All tasks of the run. -/
def allTasks : List Task :=
  (sourceOrderByStem sources).flatMap Source.tasks

/-- The pool the run ends with. -/
def poolAfter : Pool :=
  (allTasks sources).foldl (Task.perform (directoryFor headers sources))
    (poolBefore headers sources)

/-- The type at a place with its methods in their final order; types that no name stands for are
left as they are. -/
def settle (i : Nat) (d : TypeDecl) : TypeDecl :=
  if ((directoryFor headers sources).registry.entries.map Prod.snd).contains i then
    { d with
      methods := orderMethods (sourceRank (sourceOrderByStem sources))
        (((typesBefore headers sources)[i]?.map (·.methods.length)).getD 0) d.methods }
  else d

/-- All types once everything has been handed out, place by place. -/
def typesAfter : List TypeDecl :=
  (poolAfter headers sources).types.mapIdx (settle headers sources)

/-- The implementations of the run with what became of them. -/
def handovers : List Handover :=
  handoversFrom (directoryFor headers sources) (poolBefore headers sources) (allTasks sources)

/-- The pool after handing out is what the tasks make of the pool before. -/
theorem reconcileTypes_eq :
    reconcileTypes headers sources =
      { headers := headerOrder headers
        sources := restoreStructs (typesAfter headers sources)
          ((headerOrder headers).flatMap Header.types).length (sourceOrderByStem sources)
        types := (((directoryFor headers sources).registry.entries.map Prod.snd).filter
          (· < ((headerOrder headers).flatMap Header.types).length)).filterMap
            fun i => (typesAfter headers sources)[i]?
        implementations := (sourceOrderByStem sources).flatMap Source.methods
        notices := (poolAfter headers sources).notices ++
          ((directoryFor headers sources).registry.entries.map Prod.snd).filterMap
            fun i => (typesAfter headers sources)[i]?.bind headerOnlyNotice? } := by
  have hpool : poolAfter headers sources
      = (sourceOrderByStem sources).foldl (attachSource (directoryFor headers sources).registry
          (directoryFor headers sources).headers (directoryFor headers sources).interfaces)
          (poolBefore headers sources) :=
    (foldl_attachSource (directoryFor headers sources) _ _).symm
  rw [typesAfter, hpool]
  rfl

end

end Sharpen
