import Mathlib.Data.List.Basic
import Sharpen.Proofs.Plan.Registry
import Sharpen.Proofs.Plan.Task
import Sharpen.Proofs.Source.Bodies

/-!
# What a Run Has Done So Far

Handing out changes types only in ways that can be read off the record of the run: the methods that
were read stay where they are, some of them completed, and methods are added behind them. This holds
as long as every implementation and every local function brings a body, for then a method that waits
for one is always one that was read and has not been completed.

The invariant compares the pool with the one at the start. For each type it names the methods that
were read, in the form they have with what was completed so far, and the methods behind them. A task
changes at most one type, by one of four changes, and each is one case. That bodies are there is
needed for one thing: a completed method must not wait for a body any more.

## Main definitions

* `Progress` — the invariant; `Progress.perform` keeps it over a task and `progress_foldl` over a
  run.
* `TypeDecl.head` — what no task changes about a type.
* `TypeDecl.addLocals` — a type with local functions and constants of a source.
* `completion?` — the implementation that completes the method at index `j` of the type at place
  `i`.
* `completed` — the methods of the type at place `i`, completed as the record says.

## Main results

* `map_head_foldl_perform` — no task changes name, kind, bases or file of a type.
* `Progress.not_completed` — a method without a body was read without one, and nothing has completed
  it.
* `map_head_perform` — no task changes the head of a type.
-/

namespace Sharpen

/-! ### What stays -/

/-- What no task changes about a type. -/
def TypeDecl.head (d : TypeDecl) : Text × TypeKind × List Text × Text :=
  (d.name, d.kind, d.bases, d.file)

/-- Changing one type keeps the heads of all of them if it keeps that of the one. -/
theorem map_head_modify {f : TypeDecl → TypeDecl} (hf : ∀ d, (f d).head = d.head)
    (types : List TypeDecl) (i : Nat) :
    (types.modify i f).map TypeDecl.head = types.map TypeDecl.head := by
  refine List.ext_getElem? fun k => ?_
  rw [List.getElem?_map, List.getElem?_map, List.getElem?_modify]
  cases types[k]? with
  | none => rfl
  | some d => by_cases hk : i = k <;> simp [hk, hf]

/-- A static initializer changes members of one type at most. -/
theorem attachStaticInit_types (registry : Registry) (stem : Text) (pool : Pool)
    (init : StaticInit) :
    (attachStaticInit registry stem pool init).types = pool.types ∨
      ∃ i j, (attachStaticInit registry stem pool init).types
        = pool.types.modify i fun d =>
            { d with members := initializeMember d.members j init.value } := by
  rw [attachStaticInit]
  split
  · exact Or.inl rfl
  · exact Or.inr ⟨_, _, rfl⟩

/-- A method as one that the type `name` has taken in. -/
def Method.ownedBy (name : Text) (m : Method) : Method :=
  { m with owner := name }

/-- A type with local functions and constants of a source. -/
def TypeDecl.addLocals (d : TypeDecl) (s : Source) : TypeDecl :=
  { d with
    methods := d.methods ++ s.locals.map (·.ownedBy d.name)
    sourceConstants := d.sourceConstants ++ s.constants }

/-- Local functions and constants go to one type at most. -/
theorem attachLocals_types (registry : Registry) (headers : List PlacedHeader)
    (interfaces : List Text) (pool : Pool) (s : Source) :
    (attachLocals registry headers interfaces pool s).types = pool.types ∨
      ∃ i, (attachLocals registry headers interfaces pool s).types
        = pool.types.modify i (·.addLocals s) := by
  rw [attachLocals]
  split
  · split
    · exact Or.inl rfl
    · exact Or.inl rfl
  · exact Or.inr ⟨_, rfl⟩

/-- **No task changes the head of a type.** -/
theorem map_head_perform (dir : Directory) (pool : Pool) (t : Task) :
    (t.perform dir pool).types.map TypeDecl.head = pool.types.map TypeDecl.head := by
  cases t with
  | implementation stem impl =>
      rw [Task.perform, attachImplementation_types]
      cases fateOf dir.registry pool.types impl with
      | dropped => rfl
      | merged i j =>
          have hkeep : ∀ d : TypeDecl, (d.complete j impl).head = d.head := fun _ => rfl
          exact map_head_modify hkeep _ _
      | kept i m =>
          have hkeep : ∀ d : TypeDecl, (d.addMethods [m]).head = d.head := fun _ => rfl
          exact map_head_modify hkeep _ _
  | staticInit stem init =>
      rw [Task.perform]
      rcases attachStaticInit_types dir.registry stem pool init with h | ⟨i, j, h⟩
      · rw [h]
      · rw [h]
        refine map_head_modify ?_ _ _
        exact fun _ => rfl
  | locals s =>
      rw [Task.perform]
      rcases attachLocals_types dir.registry dir.headers dir.interfaces pool s with h | ⟨i, h⟩
      · rw [h]
      · have hkeep : ∀ d : TypeDecl, (d.addLocals s).head = d.head := fun _ => rfl
        rw [h]
        exact map_head_modify hkeep _ _

/-- No run does. -/
theorem map_head_foldl_perform (dir : Directory) (pool : Pool) (tasks : List Task) :
    (tasks.foldl (Task.perform dir) pool).types.map TypeDecl.head
      = pool.types.map TypeDecl.head := by
  induction tasks generalizing pool with
  | nil => rfl
  | cons t r ih => rw [List.foldl_cons, ih, map_head_perform]

/-! ### Reading the record of a run -/

/-- The implementation that completes the method at index `j` of the type at place `i`. -/
def completion? (run : List Handover) (i j : Nat) : Option Method :=
  (run.find? (·.fate == .merged i j)).map Handover.impl

/-- The methods of the type at place `i`, completed as the record says. -/
def completed (run : List Handover) (i : Nat) (methods : List Method) : List Method :=
  methods.mapIdx fun j m => ((completion? run i j).map m.merge).getD m

/-- The implementations that the type at place `i` keeps, in the form it keeps them. -/
def keptAt (run : List Handover) (i : Nat) : List Method :=
  run.filterMap fun h =>
    match h.fate with
    | .kept k m => if k = i then some m else none
    | _ => none

/-- Before a run nothing is completed. -/
theorem completed_nil (i : Nat) (methods : List Method) : completed [] i methods = methods :=
  List.mapIdx_eq_iff.mpr fun j => by simp [completion?]

section

variable {run : List Handover} {h : Handover} {i j : Nat}

/-- What completes a method after one more handover. -/
theorem completion?_append_singleton :
    completion? (run ++ [h]) i j
      = (completion? run i j).or (if h.fate = .merged i j then some h.impl else none) := by
  rw [completion?, List.find?_append, completion?]
  cases run.find? (·.fate == .merged i j) with
  | some _ => rfl
  | none => by_cases hfate : h.fate = .merged i j <;> simp [hfate]

/-- A handover that completes no method of a type leaves its methods as they were. -/
theorem completed_append_of_ne (hne : ∀ j, h.fate ≠ .merged i j) (methods : List Method) :
    completed (run ++ [h]) i methods = completed run i methods := by
  have hsame : ∀ j, completion? (run ++ [h]) i j = completion? run i j := by
    intro j
    rw [completion?_append_singleton, if_neg (hne j), Option.or_none]
  simp only [completed, hsame]

/-- A handover that completes a method for the first time changes this method alone. -/
theorem completed_append_of_merged (hfate : h.fate = .merged i j)
    (hopen : completion? run i j = none) (methods : List Method) :
    completed (run ++ [h]) i methods = (completed run i methods).modify j (·.merge h.impl) := by
  refine List.ext_getElem? fun k => ?_
  rw [List.getElem?_modify, completed, completed, List.getElem?_mapIdx, List.getElem?_mapIdx,
    completion?_append_singleton, hfate]
  by_cases hk : j = k
  · subst hk
    simp [hopen]
  · simp [hk]

/-- What a type keeps after one more handover. -/
theorem keptAt_append_singleton :
    keptAt (run ++ [h]) i = keptAt run i ++ keptAt [h] i :=
  List.filterMap_append

end

/-- Changing an element of a first part leaves the second part as it is. -/
theorem modify_append_of_lt {α : Type} {l : List α} {j : Nat} (hj : j < l.length) (r : List α)
    (f : α → α) : (l ++ r).modify j f = l.modify j f ++ r := by
  refine List.ext_getElem? fun k => ?_
  rw [List.getElem?_modify, List.getElem?_append, List.getElem?_append, List.length_modify,
    List.getElem?_modify]
  by_cases hk : k < l.length
  · simp [hk]
  · have hne : j ≠ k := by omega
    simp [hk, hne]

/-! ### The invariant -/

/-- The type `f` is the type `d` at place `i` after the run: the methods it was read with,
completed, and behind them those it has kept and some of the local functions, all of which have
bodies. -/
def Grown (run : List Handover) (locals : List Method) (i : Nat) (d f : TypeDecl) : Prop :=
  ∃ extra ls : List Method, f.methods = completed run i d.methods ++ extra ∧
    HaveBodies extra ∧ ls.Sublist locals ∧
    extra.Perm (keptAt run i ++ ls.map (·.ownedBy f.name))

/-- How the types stand after a run that has handed out the implementations of the record `run` and
the local functions `locals`. -/
structure Progress (before : List TypeDecl) (run : List Handover) (locals : List Method)
    (types : List TypeDecl) : Prop where
  heads : types.map TypeDecl.head = before.map TypeDecl.head
  filled : ∀ h ∈ run, h.impl.body.isSome = true
  grown : ∀ i d f, before[i]? = some d → types[i]? = some f → Grown run locals i d f

/-- At the start nothing has happened. -/
theorem progress_nil (before : List TypeDecl) : Progress before [] [] before := by
  refine ⟨rfl, by simp, fun i d f hd hf => ?_⟩
  obtain rfl : d = f := Option.some.inj (hd.symm.trans hf)
  refine ⟨[], [], ?_, HaveBodies.nil, List.Sublist.refl _, List.Perm.refl _⟩
  rw [completed_nil, List.append_nil]

namespace Grown

variable {run : List Handover} {locals : List Method} {h : Handover} {i j : Nat} {d f : TypeDecl}

/-- A handover to another type. -/
theorem append_of_ne (hg : Grown run locals i d f) (hmerged : ∀ j, h.fate ≠ .merged i j)
    (hkept : ∀ m, h.fate ≠ .kept i m) : Grown (run ++ [h]) locals i d f := by
  obtain ⟨extra, ls, hmethods, hbodies, hls, hperm⟩ := hg
  have hnone : keptAt [h] i = [] := by
    cases hfate : h.fate with
    | kept k m =>
        have hk : k ≠ i := fun hk => hkept m (hk ▸ hfate)
        simp [keptAt, hfate, hk]
    | dropped => simp [keptAt, hfate]
    | merged k j => simp [keptAt, hfate]
  refine ⟨extra, ls, ?_, hbodies, hls, ?_⟩
  · rw [completed_append_of_ne hmerged, hmethods]
  · rw [keptAt_append_singleton, hnone, List.append_nil]
    exact hperm

/-- A handover that completes a method of the type. -/
theorem append_of_merged (hg : Grown run locals i d f) (hfate : h.fate = .merged i j)
    (hj : j < d.methods.length) (hopen : completion? run i j = none) :
    Grown (run ++ [h]) locals i d (f.complete j h.impl) := by
  obtain ⟨extra, ls, hmethods, hbodies, hls, hperm⟩ := hg
  have hnone : keptAt [h] i = [] := by simp [keptAt, hfate]
  refine ⟨extra, ls, ?_, hbodies, hls, ?_⟩
  · have hlt : j < (completed run i d.methods).length := by simpa [completed] using hj
    rw [completed_append_of_merged hfate hopen, TypeDecl.complete, hmethods]
    exact modify_append_of_lt hlt _ _
  · rw [keptAt_append_singleton, hnone, List.append_nil]
    exact hperm

/-- A handover that the type keeps. -/
theorem append_of_kept {m : Method} (hg : Grown run locals i d f) (hfate : h.fate = .kept i m)
    (hbody : m.body.isSome = true) : Grown (run ++ [h]) locals i d (f.addMethods [m]) := by
  obtain ⟨extra, ls, hmethods, hbodies, hls, hperm⟩ := hg
  have hone : keptAt [h] i = [m] := by simp [keptAt, hfate]
  refine ⟨extra ++ [m], ls, ?_, hbodies.concat hbody, hls, ?_⟩
  · have hmerged : ∀ j, h.fate ≠ .merged i j := fun j => by simp [hfate]
    rw [completed_append_of_ne hmerged, TypeDecl.addMethods, hmethods, List.append_assoc]
  · rw [keptAt_append_singleton, hone]
    refine (hperm.append_right [m]).trans ?_
    rw [List.append_assoc, List.append_assoc]
    exact List.perm_append_comm.append_left _

/-- Local functions that go to another type. -/
theorem append_locals (hg : Grown run locals i d f) (more : List Method) :
    Grown run (locals ++ more) i d f := by
  obtain ⟨extra, ls, hmethods, hbodies, hls, hperm⟩ := hg
  exact ⟨extra, ls, hmethods, hbodies, hls.trans (List.sublist_append_left _ _), hperm⟩

/-- Local functions that go to the type. -/
theorem addLocals {s : Source} (hg : Grown run locals i d f)
    (hbody : HaveBodies s.locals) :
    Grown run (locals ++ s.locals) i d (f.addLocals s) := by
  obtain ⟨extra, ls, hmethods, hbodies, hls, hperm⟩ := hg
  refine ⟨extra ++ s.locals.map (·.ownedBy f.name), ls ++ s.locals, ?_, ?_,
    hls.append (List.Sublist.refl _), ?_⟩
  · rw [TypeDecl.addLocals, hmethods, List.append_assoc]
  · refine hbodies.append fun m hm => ?_
    obtain ⟨l, hl, rfl⟩ := List.mem_map.mp hm
    exact hbody l hl
  · rw [List.map_append, ← List.append_assoc]
    exact hperm.append_right _

/-- Changes to a type other than to its methods. -/
theorem of_methods_eq {g : TypeDecl} (hg : Grown run locals i d f) (hname : g.name = f.name)
    (hmethods : g.methods = f.methods) : Grown run locals i d g := by
  rw [Grown, hmethods, hname]
  exact hg

end Grown

namespace Progress

variable {before types : List TypeDecl} {run : List Handover} {locals : List Method}

/-- A type that was read is there, with the head it was read with. -/
theorem exists_type (hp : Progress before run locals types) {i : Nat} {d : TypeDecl}
    (hd : before[i]? = some d) : ∃ f, types[i]? = some f ∧ f.head = d.head := by
  have hhead : (types.map TypeDecl.head)[i]? = (before.map TypeDecl.head)[i]? := by rw [hp.heads]
  rw [List.getElem?_map, List.getElem?_map, hd] at hhead
  obtain ⟨f, hf, heq⟩ := Option.map_eq_some_iff.mp hhead
  exact ⟨f, hf, heq⟩

/-- A type that is there was read, with the head it has. -/
theorem exists_type_before (hp : Progress before run locals types) {i : Nat} {f : TypeDecl}
    (hf : types[i]? = some f) : ∃ d, before[i]? = some d ∧ f.head = d.head := by
  have hhead : (types.map TypeDecl.head)[i]? = (before.map TypeDecl.head)[i]? := by rw [hp.heads]
  rw [List.getElem?_map, List.getElem?_map, hf] at hhead
  obtain ⟨d, hd, heq⟩ := Option.map_eq_some_iff.mp hhead.symm
  exact ⟨d, hd, heq.symm⟩

/-- What completes a method brings a body. -/
theorem isSome_body_of_completion? (hp : Progress before run locals types) {i j : Nat}
    {impl : Method} (himpl : completion? run i j = some impl) : impl.body.isSome = true := by
  obtain ⟨h, hfind, rfl⟩ := Option.map_eq_some_iff.mp himpl
  exact hp.filled h (List.mem_of_find?_eq_some hfind)

/-- **A method without a body was read without one, and nothing has completed it.** -/
theorem not_completed (hp : Progress before run locals types) {i j : Nat} {d f : TypeDecl}
    {m : Method} (hd : before[i]? = some d) (hf : types[i]? = some f)
    (hm : f.methods[j]? = some m) (hbody : m.body = none) :
    d.methods[j]? = some m ∧ completion? run i j = none := by
  obtain ⟨extra, ls, hmethods, hbodies, -, -⟩ := hp.grown i d f hd hf
  rw [hmethods, List.getElem?_append] at hm
  split at hm
  · rw [completed, List.getElem?_mapIdx] at hm
    obtain ⟨m', hm', rfl⟩ := Option.map_eq_some_iff.mp hm
    cases hcompletion : completion? run i j with
    | none => exact ⟨by simpa [hcompletion] using hm', rfl⟩
    | some impl =>
        have hfull := hp.isSome_body_of_completion? hcompletion
        simp only [hcompletion, Option.map_some, Option.getD_some, Method.merge] at hbody
        simp [hbody] at hfull
  · have hfull := hbodies m (List.mem_of_getElem? hm)
    simp [hbody] at hfull

end Progress

/-! ### Tasks keep the invariant -/

/-- The local functions a task hands out. -/
def Task.functions : Task → List Method
  | .locals s => s.locals
  | .implementation _ _ | .staticInit _ _ => []

/-- Whether all that a task hands out brings a body. -/
def Task.HasBodies : Task → Prop
  | .implementation _ impl => impl.body.isSome = true
  | .staticInit _ _ => True
  | .locals s => HaveBodies s.locals

/-- An implementation keeps the invariant. -/
theorem Progress.perform_implementation {before : List TypeDecl} {run : List Handover}
    {locals : List Method} {dir : Directory} {pool : Pool} {stem : Text} {impl : Method}
    (hp : Progress before run locals pool.types) (hbody : impl.body.isSome = true) :
    Progress before (run ++ [⟨stem, impl, fateOf dir.registry pool.types impl⟩]) locals
      (attachImplementation dir.registry stem pool impl).types := by
  have hheads := map_head_perform dir pool (.implementation stem impl)
  rw [Task.perform] at hheads
  refine ⟨hheads.trans hp.heads, ?_, fun i d f hd hf => ?_⟩
  · intro h hh
    rcases List.mem_append.mp hh with hh | hh
    · exact hp.filled h hh
    · exact List.mem_singleton.mp hh ▸ hbody
  · rw [attachImplementation_types] at hf
    cases hfate : fateOf dir.registry pool.types impl with
    | dropped =>
        rw [hfate] at hf
        exact (hp.grown i d f hd hf).append_of_ne (by simp) (by simp)
    | merged k j =>
        rw [hfate, Fate.apply, List.getElem?_modify] at hf
        by_cases hk : k = i
        · subst hk
          obtain ⟨-, -, c, m, -, -, hc, hm, -, hnone, -⟩ := exists_of_fateOf_eq_merged hfate
          obtain ⟨hread, hopen⟩ := hp.not_completed hd hc hm hnone
          obtain rfl : c.complete j impl = f := by simpa [hc] using hf
          have hj := (List.getElem?_eq_some_iff.mp hread).1
          exact (hp.grown k d c hd hc).append_of_merged rfl hj hopen
        · have hf : pool.types[i]? = some f := by simpa [hk] using hf
          refine (hp.grown i d f hd hf).append_of_ne ?_ (by simp)
          intro j' heq
          exact hk (Fate.merged.inj heq).1
    | kept k m =>
        have hm : m.body.isSome = true := by
          obtain ⟨-, rfl | rfl⟩ := fateOf_eq_kept hfate <;> exact hbody
        rw [hfate, Fate.apply, List.getElem?_modify] at hf
        by_cases hk : k = i
        · subst hk
          obtain ⟨c, hc, -⟩ := hp.exists_type hd
          obtain rfl : c.addMethods [m] = f := by simpa [hc] using hf
          exact (hp.grown k d c hd hc).append_of_kept rfl hm
        · have hf : pool.types[i]? = some f := by simpa [hk] using hf
          refine (hp.grown i d f hd hf).append_of_ne (by simp) ?_
          intro m' heq
          exact hk (Fate.kept.inj heq).1

/-- **Every task keeps the invariant.** -/
theorem Progress.perform {before : List TypeDecl} {run : List Handover} {locals : List Method}
    {pool : Pool} {t : Task} (dir : Directory) (hp : Progress before run locals pool.types)
    (ht : t.HasBodies) :
    Progress before (run ++ t.handovers dir pool.types) (locals ++ t.functions)
      (t.perform dir pool).types := by
  cases t with
  | implementation stem impl =>
      rw [Task.functions, List.append_nil]
      exact hp.perform_implementation ht
  | staticInit stem init =>
      have hheads := map_head_perform dir pool (.staticInit stem init)
      rw [Task.handovers, Task.functions, List.append_nil, List.append_nil]
      refine ⟨hheads.trans hp.heads, hp.filled, fun i d f hd hf => ?_⟩
      obtain ⟨c, hc, -⟩ := hp.exists_type hd
      have hgrown := hp.grown i d c hd hc
      rw [Task.perform] at hf
      rcases attachStaticInit_types dir.registry stem pool init with h | ⟨k, j, h⟩
      · obtain rfl : c = f := by simpa [h, hc] using hf
        exact hgrown
      · rw [h, List.getElem?_modify, hc] at hf
        by_cases hk : k = i
        · obtain rfl := Option.some.inj (by simpa [hk] using hf)
          exact hgrown.of_methods_eq rfl rfl
        · obtain rfl : c = f := by simpa [hk] using hf
          exact hgrown
  | locals s =>
      have hheads := map_head_perform dir pool (.locals s)
      rw [Task.handovers, Task.functions, List.append_nil]
      refine ⟨hheads.trans hp.heads, hp.filled, fun i d f hd hf => ?_⟩
      obtain ⟨c, hc, -⟩ := hp.exists_type hd
      have hgrown := hp.grown i d c hd hc
      rw [Task.perform] at hf
      rcases attachLocals_types dir.registry dir.headers dir.interfaces pool s with h | ⟨k, h⟩
      · obtain rfl : c = f := by simpa [h, hc] using hf
        exact hgrown.append_locals _
      · rw [h, List.getElem?_modify, hc] at hf
        by_cases hk : k = i
        · obtain rfl : c.addLocals s = f := by simpa [hk] using hf
          exact hgrown.addLocals ht
        · obtain rfl : c = f := by simpa [hk] using hf
          exact hgrown.append_locals _

/-- **Every run keeps the invariant.** -/
theorem progress_foldl {before : List TypeDecl} {run : List Handover} {locals : List Method}
    {tasks : List Task} (dir : Directory) (pool : Pool)
    (hp : Progress before run locals pool.types) (htasks : ∀ t ∈ tasks, t.HasBodies) :
    Progress before (run ++ handoversFrom dir pool tasks) (locals ++ tasks.flatMap Task.functions)
      (tasks.foldl (Task.perform dir) pool).types := by
  induction tasks generalizing run locals pool with
  | nil => simpa [handoversFrom] using hp
  | cons t r ih =>
      have hstep := hp.perform dir (htasks t List.mem_cons_self)
      have hrest := ih _ hstep fun t ht => htasks t (List.mem_cons_of_mem _ ht)
      rw [handoversFrom, List.flatMap_cons, ← List.append_assoc, ← List.append_assoc]
      exact hrest

end Sharpen
