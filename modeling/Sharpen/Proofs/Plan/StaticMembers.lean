import Sharpen.Proofs.Plan.MethodOrder
import Sharpen.Proofs.Plan.Namespace
import Sharpen.Proofs.Source.StaticInits

/-!
# Static Members and Their Initializers

A static member may be declared without a value and get it in a source file. Static initializers are
handed out one after the other, and a member that has a value keeps it. So a member ends up with the
value of its declaration, or else with that of the first initializer that names it; nothing else of
it changes, and no other task of the run touches a member.

Two facts carry the statement. An initializer is for the member that its names stand for, whatever
values members have, so who gets it does not change during a run. And a member with a value is left
as it is, so the first initializer wins, and one whose declaration has a value takes none. What
initializers find no member is reported in their order.

## Main definitions

* `StaticInit.place?` — the member that an initializer is for: the first one of that name in the
  type that the owner's name stands for.
* `filled` — the members of a type with the values that some initializers give them;
  `membersOf_foldl_perform` says that a run does this and no more.
* `valueFor` — the value that the first of some initializers gives a member.
* `Member.fill` — a member with a value, unless it has one.
* `Task.staticInits` — the static initializers of a task, with the source they are in.

## Main results

* `noMember_foldl_perform` — the initializers without a member are reported, each of them once.
* `initialized_ofParts` — both for all headers and sources, with the order the initializers come in.
* `membersOf_perform` — what one task does to members: a static initializer fills its member, and
  nothing else changes any.
* `noMember_perform` — what one task reports: a static initializer that has no member is reported,
  and no other task reports one.
* `valueFor_eq` — the initializer that a member gets its value from: the first that names it and its
  type, if the member is the first of its name.
* `members_typesAfter` — the members of a type at the end.
* `pairwise_allStaticInits` — all initializers are in the order of the sources' names, then of the
  texts.
-/

namespace Sharpen

/-! ### The member of an initializer -/

/-- The place of the type that an initializer is for, and the index of the member there. -/
def StaticInit.place? (registry : Registry) (types : List TypeDecl) (x : StaticInit) :
    Option (Nat × Nat) := do
  let i ← registry.find? x.owner
  let d ← types[i]?
  let j ← d.members.findIdx? (·.name == x.name)
  some (i, j)

/-- The names of the members, type by type. -/
def memberNames (types : List TypeDecl) : List (List Text) :=
  types.map fun d => d.members.map Member.name

/-- Where the member of an initializer is depends on the names of members alone. -/
theorem StaticInit.place?_congr (registry : Registry) {types types' : List TypeDecl}
    (h : memberNames types = memberNames types') (x : StaticInit) :
    x.place? registry types = x.place? registry types' := by
  have hfind : ∀ (ts : List TypeDecl) (i : Nat),
      (ts[i]?.bind fun d => d.members.findIdx? (·.name == x.name))
        = (memberNames ts)[i]?.bind fun names => names.findIdx? (· == x.name) := by
    intro ts i
    rw [memberNames, List.getElem?_map, Option.bind_map]
    refine Option.bind_congr fun d _ => ?_
    rw [Function.comp_apply, List.findIdx?_map]
    rfl
  simp only [StaticInit.place?, Option.bind_eq_bind]
  refine Option.bind_congr fun i _ => ?_
  rw [← Option.bind_assoc, ← Option.bind_assoc, hfind, hfind, h]

/-- The member that an initializer is for is the first one of its name. -/
theorem StaticInit.place?_eq_some_iff {registry : Registry} {types : List TypeDecl} {x : StaticInit}
    {i j : Nat} :
    x.place? registry types = some (i, j) ↔ registry.find? x.owner = some i ∧
      ∃ d, types[i]? = some d ∧ d.members.findIdx? (·.name == x.name) = some j := by
  simp only [StaticInit.place?, Option.bind_eq_bind, Option.bind_eq_some_iff, Option.some.injEq,
    Prod.mk.injEq]
  constructor
  · rintro ⟨i', hi, d, hd, j', hj, rfl, rfl⟩
    exact ⟨hi, d, hd, hj⟩
  · rintro ⟨hi, d, hd, hj⟩
    exact ⟨i, hi, d, hd, j, hj, rfl, rfl⟩

/-! ### Members that are filled -/

/-- The value that the first of some initializers gives a member. -/
def valueFor (place? : StaticInit → Option (Nat × Nat)) (inits : List StaticInit) (i j : Nat) :
    Option Text :=
  (inits.find? fun x => place? x == some (i, j)).map StaticInit.value

/-- A member with a value, unless it has one. -/
def Member.fill (m : Member) (value : Option Text) : Member :=
  { m with initializer := m.initializer.or value }

/-- The members of the type at place `i` with the values that initializers give them. -/
def filled (place? : StaticInit → Option (Nat × Nat)) (inits : List StaticInit) (i : Nat)
    (members : List Member) : List Member :=
  members.mapIdx fun j m => m.fill (valueFor place? inits i j)

section

variable (place? : StaticInit → Option (Nat × Nat))

theorem filled_nil (i : Nat) (members : List Member) : filled place? [] i members = members := by
  refine List.ext_getElem? fun j => ?_
  rw [filled, List.getElem?_mapIdx]
  cases members[j]? with
  | none => rfl
  | some m => simp [Member.fill, valueFor]

/-- Without initializers no type changes. -/
theorem mapIdx_filled_nil (rows : List (List Member)) :
    rows.mapIdx (fun i members => filled place? [] i members) = rows := by
  refine List.ext_getElem? fun i => ?_
  rw [List.getElem?_mapIdx]
  cases rows[i]? with
  | none => rfl
  | some members => exact congrArg some (filled_nil place? i members)

/-- Filling in initial values leaves the names of the members. -/
theorem map_name_filled (inits : List StaticInit) (i : Nat) (members : List Member) :
    (filled place? inits i members).map Member.name = members.map Member.name := by
  refine List.ext_getElem? fun j => ?_
  rw [filled, List.getElem?_map, List.getElem?_mapIdx, List.getElem?_map, Option.map_map]
  rfl

/-- The first of the initializers comes first. -/
theorem filled_cons (x : StaticInit) (inits : List StaticInit) (i : Nat) (members : List Member) :
    filled place? (x :: inits) i members = filled place? inits i (filled place? [x] i members) := by
  refine List.ext_getElem? fun j => ?_
  rw [filled, filled, filled, List.getElem?_mapIdx, List.getElem?_mapIdx, List.getElem?_mapIdx,
    Option.map_map]
  refine congrArg (Option.map · _) (funext fun m => ?_)
  rw [Function.comp_apply, Member.fill, Member.fill, Member.fill, Option.or_assoc]
  congr 2
  rw [valueFor, valueFor, valueFor, List.find?_cons, List.find?_cons]
  cases place? x == some (i, j) <;> rfl

/-- One initializer fills one member. -/
theorem initializeMember_eq_filled {x : StaticInit} {i j : Nat} (h : place? x = some (i, j))
    (members : List Member) :
    initializeMember members j x.value = filled place? [x] i members := by
  refine List.ext_getElem? fun k => ?_
  rw [initializeMember, List.getElem?_modify, filled, List.getElem?_mapIdx]
  cases members[k]? with
  | none => rfl
  | some m =>
      by_cases hk : j = k
      · simp [hk, h, Member.fill, valueFor]
      · simp [hk, h, Member.fill, valueFor]

/-- In all other types it fills none. -/
theorem filled_of_ne {x : StaticInit} {i : Nat} (h : ∀ j, place? x ≠ some (i, j))
    (members : List Member) : filled place? [x] i members = members := by
  refine List.ext_getElem? fun j => ?_
  rw [filled, List.getElem?_mapIdx]
  cases members[j]? with
  | none => rfl
  | some m => simp [Member.fill, valueFor, h j]

end

/-! ### A run -/

/-- The static initializers of a task, with the source they are in. -/
def Task.staticInits : Task → List (Text × StaticInit)
  | .staticInit stem x => [(stem, x)]
  | .implementation _ _ | .locals _ => []

/-- The members, type by type. -/
def membersOf (types : List TypeDecl) : List (List Member) :=
  types.map TypeDecl.members

/-- The names of the members are those of the members of each type. -/
theorem memberNames_eq (types : List TypeDecl) :
    memberNames types = (membersOf types).map (·.map Member.name) := by
  rw [memberNames, membersOf, List.map_map]
  rfl

/-- Changing a type in other ways leaves its members. -/
theorem membersOf_modify {f : TypeDecl → TypeDecl} (hf : ∀ d, (f d).members = d.members)
    (types : List TypeDecl) (i : Nat) : membersOf (types.modify i f) = membersOf types := by
  refine List.ext_getElem? fun k => ?_
  rw [membersOf, membersOf, List.getElem?_map, List.getElem?_map, List.getElem?_modify]
  cases types[k]? with
  | none => rfl
  | some d => by_cases hk : i = k <;> simp [hk, hf]

/-- A static initializer fills the member that it is for. -/
theorem membersOf_attachStaticInit (registry : Registry) (stem : Text) (pool : Pool)
    (x : StaticInit) :
    membersOf (attachStaticInit registry stem pool x).types
      = (membersOf pool.types).mapIdx fun i members =>
          filled (·.place? registry pool.types) [x] i members := by
  refine List.ext_getElem? fun k => ?_
  rw [List.getElem?_mapIdx, attachStaticInit]
  cases hplace : x.place? registry pool.types with
  | none =>
      have hfilled : ∀ members, filled (·.place? registry pool.types) [x] k members = members :=
        filled_of_ne _ (by simp [hplace])
      simp only [hfilled, Option.map_id']
      rw [StaticInit.place?] at hplace
      rw [hplace]
      rfl
  | some p =>
      have hplace' := hplace
      rw [StaticInit.place?] at hplace'
      rw [hplace']
      simp only [Pool.modify, membersOf, List.getElem?_map, List.getElem?_modify]
      cases pool.types[k]? with
      | none => rfl
      | some d =>
          by_cases hk : p.1 = k
          · subst hk
            simp [initializeMember_eq_filled (·.place? registry pool.types) hplace]
          · have hother : ∀ j, x.place? registry pool.types ≠ some (k, j) := by
              rintro j hj
              rw [hplace] at hj
              exact hk (congrArg Prod.fst (Option.some.inj hj))
            simp [hk, filled_of_ne (·.place? registry pool.types) hother]

/-- **What one task does to members**: a static initializer fills its member, and nothing else
changes any. -/
theorem membersOf_perform (dir : Directory) (pool : Pool) (t : Task) :
    membersOf (t.perform dir pool).types = (membersOf pool.types).mapIdx fun i members =>
      filled (·.place? dir.registry pool.types) (t.staticInits.map Prod.snd) i members := by
  cases t with
  | implementation stem impl =>
      refine Eq.trans ?_ (mapIdx_filled_nil _ _).symm
      rw [Task.perform, attachImplementation_types]
      cases fateOf dir.registry pool.types impl with
      | dropped => rfl
      | merged i j =>
          have hkeep : ∀ d : TypeDecl, (d.complete j impl).members = d.members := fun _ => rfl
          exact membersOf_modify hkeep _ _
      | kept i m =>
          have hkeep : ∀ d : TypeDecl, (d.addMethods [m]).members = d.members := fun _ => rfl
          exact membersOf_modify hkeep _ _
  | locals s =>
      refine Eq.trans ?_ (mapIdx_filled_nil _ _).symm
      rw [Task.perform]
      rcases attachLocals_types dir.registry dir.headers dir.interfaces pool s with h | ⟨i, h⟩
      · rw [h]
      · have hkeep : ∀ d : TypeDecl, (d.addLocals s).members = d.members := fun _ => rfl
        rw [h]
        exact membersOf_modify hkeep _ _
  | staticInit stem x => exact membersOf_attachStaticInit dir.registry stem pool x

/-- No task changes the name of a member. -/
theorem memberNames_perform (dir : Directory) (pool : Pool) (t : Task) :
    memberNames (t.perform dir pool).types = memberNames pool.types := by
  rw [memberNames_eq, memberNames_eq, membersOf_perform]
  refine List.ext_getElem? fun i => ?_
  rw [List.getElem?_map, List.getElem?_mapIdx, List.getElem?_map, Option.map_map]
  exact congrArg (Option.map · _) (funext fun members => map_name_filled _ _ i members)

/-- **What a run does to members**: each of them gets the value of the first initializer that is for
it, unless it has one. -/
theorem membersOf_foldl_perform (dir : Directory) (pool : Pool) (tasks : List Task) :
    membersOf (tasks.foldl (Task.perform dir) pool).types =
      (membersOf pool.types).mapIdx fun i members =>
        filled (·.place? dir.registry pool.types)
          ((tasks.flatMap Task.staticInits).map Prod.snd) i members := by
  induction tasks generalizing pool with
  | nil => exact (mapIdx_filled_nil _ _).symm
  | cons t r ih =>
      have hplace : ∀ x : StaticInit, x.place? dir.registry (t.perform dir pool).types
          = x.place? dir.registry pool.types :=
        StaticInit.place?_congr dir.registry (memberNames_perform dir pool t)
      rw [List.foldl_cons, ih, membersOf_perform]
      simp only [hplace]
      refine List.ext_getElem? fun i => ?_
      rw [List.getElem?_mapIdx, List.getElem?_mapIdx, List.getElem?_mapIdx, Option.map_map,
        List.flatMap_cons, List.map_append]
      refine congrArg (Option.map · _) (funext fun members => ?_)
      cases t with
      | staticInit stem x => exact (filled_cons _ x _ i members).symm
      | implementation stem impl => exact congrArg _ (filled_nil _ i members)
      | locals s => exact congrArg _ (filled_nil _ i members)

/-! ### Initializers without a member -/

/-- Whether a report is about a static initializer that no member takes. -/
def PlanNotice.isNoMember : PlanNotice → Bool
  | .noMember _ _ _ => true
  | _ => false

/-- The reports about the initializers that no member takes. -/
def noMemberNotices (place? : StaticInit → Option (Nat × Nat)) (inits : List (Text × StaticInit)) :
    List PlanNotice :=
  (inits.filter fun x => (place? x.2).isNone).map fun x => .noMember x.1 x.2.owner x.2.name

/-- **What one task reports**: a static initializer that has no member is reported, and no other
task reports one. -/
theorem noMember_perform (dir : Directory) (pool : Pool) (t : Task) :
    (t.perform dir pool).notices.filter PlanNotice.isNoMember =
      pool.notices.filter PlanNotice.isNoMember ++
        noMemberNotices (·.place? dir.registry pool.types) t.staticInits := by
  cases t with
  | implementation stem impl =>
      refine Eq.trans ?_ (List.append_nil _).symm
      rw [Task.perform, attachImplementation]
      cases dir.registry.find? impl.owner with
      | none => simp [Pool.report, PlanNotice.isNoMember]
      | some owner =>
          dsimp only
          rcases findDeclaration dir.registry pool.types owner impl with ⟨_ | _ | _ | _, i⟩ <;>
            simp [Pool.report, Pool.modifyMethod, Pool.addMethod, Pool.modify,
              PlanNotice.isNoMember]
  | locals s =>
      refine Eq.trans ?_ (List.append_nil _).symm
      rw [Task.perform, attachLocals]
      split
      · split
        · rfl
        · simp [Pool.report, PlanNotice.isNoMember]
      · rfl
  | staticInit stem x =>
      rw [Task.perform, attachStaticInit, Task.staticInits, noMemberNotices]
      cases hplace : x.place? dir.registry pool.types with
      | none =>
          have hplace' := hplace
          rw [StaticInit.place?] at hplace'
          rw [hplace']
          simp [Pool.report, PlanNotice.isNoMember, hplace]
      | some p =>
          have hplace' := hplace
          rw [StaticInit.place?] at hplace'
          rw [hplace']
          simp [Pool.modify, hplace]

/-- **What a run reports**: every initializer that has no member, in order. -/
theorem noMember_foldl_perform (dir : Directory) (pool : Pool) (tasks : List Task) :
    (tasks.foldl (Task.perform dir) pool).notices.filter PlanNotice.isNoMember =
      pool.notices.filter PlanNotice.isNoMember ++
        noMemberNotices (·.place? dir.registry pool.types) (tasks.flatMap Task.staticInits) := by
  induction tasks generalizing pool with
  | nil => simp [noMemberNotices]
  | cons t r ih =>
      have hplace : ∀ x : StaticInit, x.place? dir.registry (t.perform dir pool).types
          = x.place? dir.registry pool.types :=
        StaticInit.place?_congr dir.registry (memberNames_perform dir pool t)
      rw [List.foldl_cons, ih, noMember_perform, List.append_assoc, List.flatMap_cons,
        noMemberNotices, noMemberNotices, noMemberNotices, List.filter_append, List.map_append]
      simp only [hplace]

/-- The reports about initializers while files are laid out. -/
def FileTable.noMembers (t : FileTable) : List PlanNotice :=
  t.notices.filter PlanNotice.isNoMember

/-- Steps that report none report none one after the other. -/
theorem noMembers_foldl {α : Type} {f : FileTable → α → FileTable}
    (hf : ∀ t a, (f t a).noMembers = t.noMembers) (as : List α) (t : FileTable) :
    (as.foldl f t).noMembers = t.noMembers := by
  induction as generalizing t with
  | nil => rfl
  | cons a r ih => rw [List.foldl_cons, ih, hf]

/-- Changing a file reports none. -/
theorem noMembers_update (t : FileTable) (name : Text) (f : OutputFile → OutputFile) :
    (t.update name f).noMembers = t.noMembers :=
  congrArg (List.filter PlanNotice.isNoMember) (t.notices_update name f)

/-- Nor does adding a fragment. -/
theorem noMembers_addFragment (d : TypeDecl) (t : FileTable) (target : Text) :
    (addFragment d t target).noMembers = t.noMembers := by
  rw [addFragment, noMembers_update]
  split
  · rfl
  · simp [FileTable.noMembers, PlanNotice.isNoMember]

/-- Laying out files reports no initializer. -/
theorem noMembers_planFiles (r : Reconciled) : (planFiles r).noMembers = [] := by
  have hheader : ∀ (t : FileTable) h, (addHeader t h).noMembers = t.noMembers := by
    intro t h
    rw [addHeader]
    split
    · rfl
    · exact noMembers_update _ _ _
  have htype : ∀ (t : FileTable) d, (addType t d).noMembers = t.noMembers := by
    intro t d
    rw [addType]
    dsimp only
    split
    · exact (noMembers_foldl (noMembers_addFragment d) _ _).trans (noMembers_update _ _ _)
    · exact noMembers_update _ _ _
  have hsource : ∀ (t : FileTable) s, (addSource t s).noMembers = t.noMembers := by
    intro t s
    rw [addSource]
    by_cases hstructs : s.structs.isEmpty = true
    · rw [if_pos hstructs]
      split
      · exact noMembers_update _ _ _
      · rfl
    · rw [if_neg hstructs]
      split
      · exact (noMembers_update _ _ _).trans (noMembers_update _ _ _)
      · exact noMembers_update _ _ _
  rw [planFiles, noMembers_foldl hsource, noMembers_foldl htype, noMembers_foldl hheader]
  rfl

/-! ### Headers and sources brought together -/

section

variable {headers : List Header} {sources : List Source}

variable (sources) in
/-- The static initializers of all sources with the sources' names: in the order of the names, and
in each source from top to bottom. -/
def allStaticInits : List (Text × StaticInit) :=
  (sourceOrderByStem sources).flatMap fun s => s.staticInits.map (s.stem, ·)

/-- The static initializers of all tasks. -/
theorem flatMap_staticInits_allTasks :
    (allTasks sources).flatMap Task.staticInits = allStaticInits sources := by
  rw [allTasks, allStaticInits, List.flatMap_assoc]
  refine List.flatMap_congr fun s _ => ?_
  have himpls : (s.methods.map (Task.implementation s.stem)).flatMap Task.staticInits = [] :=
    List.flatMap_eq_nil_iff.mpr fun t ht => by
      obtain ⟨m, -, rfl⟩ := List.mem_map.mp ht
      rfl
  rw [Source.tasks, List.flatMap_append, List.flatMap_append, himpls, List.nil_append,
    List.flatMap_map, List.flatMap_singleton]
  exact (List.append_nil _).trans (List.map_eq_flatMap (f := (s.stem, ·))).symm

/-- The source and the place among its initializers of each of all initializers. -/
theorem mem_allStaticInits {stem : Text} {x : StaticInit} :
    (stem, x) ∈ allStaticInits sources ↔ ∃ s ∈ sources, s.stem = stem ∧ x ∈ s.staticInits := by
  simp only [allStaticInits, List.mem_flatMap, List.mem_map, Prod.mk.injEq, sourceOrderByStem,
    List.mem_mergeSort]
  constructor
  · rintro ⟨s, hs, y, hy, rfl, rfl⟩
    exact ⟨s, hs, rfl, hy⟩
  · rintro ⟨s, hs, rfl, hx⟩
    exact ⟨s, hs, x, hx, rfl, rfl⟩

variable (sources) in
/-- The first of all initializers that names the given member of the given type. -/
def firstInit? (owner name : Text) : Option StaticInit :=
  ((allStaticInits sources).map Prod.snd).find? fun x => x.owner == owner && x.name == name

/-- **The initializer that a member gets its value from**: the first that names it and its type, if
the member is the first of its name. -/
theorem valueFor_eq {i j : Nat} {d : TypeDecl} {m : Member}
    (hplace : placeOf? headers sources d.name = some i)
    (hd : (typesBefore headers sources)[i]? = some d) (hm : d.members[j]? = some m)
    (inits : List StaticInit) :
    valueFor (·.place? (directoryFor headers sources).registry (typesBefore headers sources)) inits
        i j
      = if d.members.findIdx? (·.name == m.name) = some j then
          (inits.find? fun x => x.owner == d.name && x.name == m.name).map StaticInit.value
        else none := by
  have hiff : ∀ x : StaticInit,
      x.place? (directoryFor headers sources).registry (typesBefore headers sources) = some (i, j) ↔
        d.members.findIdx? (·.name == m.name) = some j ∧ x.owner = d.name ∧ x.name = m.name := by
    intro x
    rw [StaticInit.place?_eq_some_iff, find?_directoryFor]
    constructor
    · rintro ⟨howner, d', hd', hj⟩
      obtain rfl : d = d' := Option.some.inj (hd.symm.trans hd')
      obtain ⟨o, ho, hname⟩ := exists_type_of_placeOf? howner
      obtain rfl : d = o := Option.some.inj (hd.symm.trans ho)
      obtain ⟨hlt, hfound, -⟩ := List.findIdx?_eq_some_iff_getElem.mp hj
      have hmember : m.name = x.name := by
        obtain ⟨_, rfl⟩ := List.getElem?_eq_some_iff.mp hm
        simpa using hfound
      exact ⟨hmember ▸ hj, hname.symm, hmember.symm⟩
    · rintro ⟨hj, howner, hname⟩
      exact ⟨howner ▸ hplace, d, hd, hname ▸ hj⟩
  rw [valueFor]
  split
  · rename_i hfirst
    have hsame : (fun x : StaticInit => x.place? (directoryFor headers sources).registry
        (typesBefore headers sources) == some (i, j))
          = fun x => x.owner == d.name && x.name == m.name := by
      funext x
      rw [Bool.eq_iff_iff, beq_iff_eq, hiff]
      simp [hfirst]
    rw [hsame]
  · rename_i hlater
    rw [List.find?_eq_none.mpr fun x _ => by simp [hiff, hlater], Option.map_none]

/-- **The members of a type at the end.** -/
theorem members_typesAfter {i : Nat} {d f : TypeDecl}
    (hplace : placeOf? headers sources d.name = some i)
    (hd : (typesBefore headers sources)[i]? = some d)
    (hf : (typesAfter headers sources)[i]? = some f) :
    f.members = d.members.mapIdx fun j m =>
      m.fill (if d.members.findIdx? (·.name == m.name) = some j then
        (firstInit? sources d.name m.name).map StaticInit.value else none) := by
  have hsettle : ∀ c, (settle headers sources i c).members = c.members := by
    intro c
    rw [settle]
    split <;> rfl
  rw [getElem?_typesAfter] at hf
  obtain ⟨c, hc, rfl⟩ := Option.map_eq_some_iff.mp hf
  have hrun := congrArg (·[i]?) (membersOf_foldl_perform (directoryFor headers sources)
    (poolBefore headers sources) (allTasks sources))
  simp only [membersOf, List.getElem?_map, List.getElem?_mapIdx,
    flatMap_staticInits_allTasks] at hrun
  rw [← poolAfter, hc, poolBefore, hd] at hrun
  have hmembers : c.members = filled _ _ i d.members := Option.some.inj hrun
  rw [hsettle, hmembers, filled]
  refine List.ext_getElem? fun j => ?_
  rw [List.getElem?_mapIdx, List.getElem?_mapIdx]
  cases hm : d.members[j]? with
  | none => rfl
  | some m => rw [Option.map_some, Option.map_some, valueFor_eq hplace hd hm, firstInit?]

/-- Whether an initializer comes before another one: in a source whose name comes first, or in the
same and before it in the text. -/
def ComesBefore (x y : Text × StaticInit) : Prop :=
  (x.1 = y.1 ∧ x.2.position < y.2.position) ∨ (x.1 ≠ y.1 ∧ Text.precedes x.1 y.1 = true)

/-- **All initializers are in the order of the sources' names, then of the texts.** -/
theorem pairwise_allStaticInits
    (hsources : ∀ s ∈ sources, ∃ text path, s = (parseSource text path).1)
    (hstems : (sources.map Source.stem).Nodup) :
    (allStaticInits sources).Pairwise ComesBefore := by
  have hsorted : (sourceOrderByStem sources).Pairwise fun s r => s.stem ≠ r.stem :=
    List.pairwise_map.mp (((List.mergeSort_perm _ _).map _).nodup_iff.mpr hstems)
  refine List.pairwise_flatMap.mpr ⟨fun s hs => ?_, ?_⟩
  · obtain ⟨text, path, rfl⟩ := hsources s (List.mem_mergeSort.mp hs)
    exact List.pairwise_map.mpr
      ((pairwise_staticInits_parseSource text path).imp fun hlt => Or.inl ⟨rfl, hlt⟩)
  · refine ((pairwise_sourceOrderByStem sources).and hsorted).imp fun hsr x hx y hy => ?_
    obtain ⟨_, -, rfl⟩ := List.mem_map.mp hx
    obtain ⟨_, -, rfl⟩ := List.mem_map.mp hy
    exact Or.inr ⟨hsr.2, hsr.1⟩

/-- The first initializer that names a member comes before all others that name it. -/
theorem firstInit?_comesBefore
    (hsources : ∀ s ∈ sources, ∃ text path, s = (parseSource text path).1)
    (hstems : (sources.map Source.stem).Nodup) {owner name : Text} {x : StaticInit}
    (h : firstInit? sources owner name = some x) :
    ∃ s ∈ sources, x ∈ s.staticInits ∧ x.owner = owner ∧ x.name = name ∧
      ∀ r ∈ sources, ∀ y ∈ r.staticInits, y.owner = owner → y.name = name →
        (r.stem, y) = (s.stem, x) ∨ ComesBefore (s.stem, x) (r.stem, y) := by
  rw [firstInit?, List.find?_map, Option.map_eq_some_iff] at h
  obtain ⟨⟨stem, init⟩, h, hinit⟩ := h
  obtain rfl : x = init := hinit.symm
  obtain ⟨hnames, before, behind, hall, hbefore⟩ := List.find?_eq_some_iff_append.mp h
  have hpairs := pairwise_allStaticInits hsources hstems
  rw [hall, List.pairwise_append, List.pairwise_cons] at hpairs
  have hmem : (stem, x) ∈ allStaticInits sources := by simp [hall]
  obtain ⟨s, hs, rfl, hx⟩ := mem_allStaticInits.mp hmem
  obtain ⟨howner, hname⟩ : x.owner = owner ∧ x.name = name := by simpa using hnames
  refine ⟨s, hs, hx, howner, hname, fun r hr y hy hyowner hyname => ?_⟩
  have hy' : (r.stem, y) ∈ allStaticInits sources := mem_allStaticInits.mpr ⟨r, hr, rfl, hy⟩
  rw [hall, List.mem_append, List.mem_cons] at hy'
  rcases hy' with hy' | hy' | hy'
  · exact absurd (hbefore _ hy') (by simp [hyowner, hyname])
  · exact Or.inl hy'
  · exact Or.inr (hpairs.2.1.1 _ hy')

/-- The reports about initializers at the end. -/
theorem filter_isNoMember_notices :
    (Plan.ofParts headers sources).notices.filter PlanNotice.isNoMember =
      noMemberNotices
        (·.place? (directoryFor headers sources).registry (typesBefore headers sources))
        (allStaticInits sources) := by
  have hbefore : (poolBefore headers sources).notices.filter PlanNotice.isNoMember = [] := by
    refine List.filter_eq_nil_iff.mpr fun n hn => ?_
    obtain ⟨i, -, hn⟩ := List.mem_filterMap.mp hn
    obtain ⟨h, -, hn⟩ := List.mem_flatMap.mp (List.mem_of_getElem? hn)
    obtain ⟨d, -, rfl⟩ := List.mem_map.mp hn
    simp [PlanNotice.isNoMember]
  have hheaderOnly : ∀ n : PlanNotice, ∀ d : TypeDecl, headerOnlyNotice? d = some n →
      n.isNoMember = false := by
    intro n d h
    rw [headerOnlyNotice?] at h
    split at h
    · cases h
    · exact Option.some.inj h ▸ rfl
  have hafter : (((directoryFor headers sources).registry.entries.map Prod.snd).filterMap fun i =>
      (typesAfter headers sources)[i]?.bind headerOnlyNotice?).filter PlanNotice.isNoMember
        = [] := by
    refine List.filter_eq_nil_iff.mpr fun n hn => ?_
    obtain ⟨i, -, hn⟩ := List.mem_filterMap.mp hn
    obtain ⟨d, -, hn⟩ := Option.bind_eq_some_iff.mp hn
    simp [hheaderOnly n d hn]
  have hfiles := noMembers_planFiles (reconcileTypes headers sources)
  rw [FileTable.noMembers] at hfiles
  rw [Plan.ofParts, List.filter_append, hfiles, reconcileTypes_eq, List.filter_append, hafter,
    poolAfter, noMember_foldl_perform, hbefore, flatMap_staticInits_allTasks]
  simp [poolBefore]

variable (headers sources) in
/-- **What becomes of static initializers.** -/
structure Initialized : Prop where
  /-- A member of a type of the headers is as its header has it, except that without an initializer
  it gets the value of the first one that names it, if it is the first of its name. -/
  members : ∀ t ∈ (Plan.ofParts headers sources).types, ∃ d ∈ headers.flatMap Header.types,
    d.name = t.name ∧ t.members = d.members.mapIdx fun j m =>
      { m with
        initializer := m.initializer.or
          (if d.members.findIdx? (·.name == m.name) = some j then
            (firstInit? sources t.name m.name).map StaticInit.value
          else none) }
  /-- The first initializer that names a member comes before all others that name it. -/
  first : ∀ owner name x, firstInit? sources owner name = some x →
    ∃ s ∈ sources, x ∈ s.staticInits ∧ x.owner = owner ∧ x.name = name ∧
      ∀ r ∈ sources, ∀ y ∈ r.staticInits, y.owner = owner → y.name = name →
        (r.stem, y) = (s.stem, x) ∨ ComesBefore (s.stem, x) (r.stem, y)
  /-- There is a first one if there is any. -/
  isSome : ∀ s ∈ sources, ∀ x ∈ s.staticInits, (firstInit? sources x.owner x.name).isSome = true
  /-- An initializer that names no known type, or none of its members, is reported. -/
  warned : ∀ s ∈ sources, ∀ x ∈ s.staticInits,
    (∀ i d, placeOf? headers sources x.owner = some i → (typesBefore headers sources)[i]? = some d →
      ∀ m ∈ d.members, m.name ≠ x.name) →
    s.stem ++ ": static initializer " ++ x.owner ++ "::" ++ x.name ++ " has no member; dropped"
      ∈ (Plan.ofParts headers sources).warnings
  /-- No other initializer is, and each of them once. -/
  reported : (Plan.ofParts headers sources).notices.filter PlanNotice.isNoMember =
    ((allStaticInits sources).filter fun x =>
      (x.2.place? (directoryFor headers sources).registry (typesBefore headers sources)).isNone).map
        fun x => .noMember x.1 x.2.owner x.2.name

/-- **Static initializers are handed out once, first come, first served**, for all headers and for
sources that were read from texts, no two of them with the same name. -/
theorem initialized_ofParts
    (hsources : ∀ s ∈ sources, ∃ text path, s = (parseSource text path).1)
    (hstems : (sources.map Source.stem).Nodup) : Initialized headers sources where
  members := by
    intro t ht
    obtain ⟨i, d, hplace, hd, hafter, hheader⟩ := exists_declared_of_mem_types ht
    obtain ⟨d', hd', hname⟩ := exists_type_of_placeOf? hplace
    obtain rfl : d = d' := Option.some.inj (hd.symm.trans hd')
    refine ⟨d, hheader, hname, ?_⟩
    rw [members_typesAfter (hname ▸ hplace) hd hafter, hname]
    rfl
  first := fun _ _ _ => firstInit?_comesBefore hsources hstems
  isSome := by
    intro s hs x hx
    have hmem : x ∈ (allStaticInits sources).map Prod.snd :=
      List.mem_map.mpr ⟨(s.stem, x), mem_allStaticInits.mpr ⟨s, hs, rfl, hx⟩, rfl⟩
    rw [firstInit?, List.find?_isSome]
    exact ⟨x, hmem, by simp⟩
  warned := by
    intro s hs x hx hunknown
    have hnone : x.place? (directoryFor headers sources).registry (typesBefore headers sources)
        = none := by
      rw [Option.eq_none_iff_forall_ne_some]
      rintro ⟨i, j⟩ hplace
      rw [StaticInit.place?_eq_some_iff, find?_directoryFor] at hplace
      obtain ⟨hi, d, hd, hj⟩ := hplace
      obtain ⟨hlt, hname, -⟩ := List.findIdx?_eq_some_iff_getElem.mp hj
      exact hunknown i d hi hd _ (List.getElem_mem hlt) (by simpa using hname)
    have hnotice : PlanNotice.noMember s.stem x.owner x.name
        ∈ (Plan.ofParts headers sources).notices.filter PlanNotice.isNoMember := by
      rw [filter_isNoMember_notices]
      refine List.mem_map.mpr ⟨(s.stem, x), List.mem_filter.mpr ⟨?_, ?_⟩, rfl⟩
      · exact mem_allStaticInits.mpr ⟨s, hs, rfl, hx⟩
      · simp [hnone]
    exact List.mem_map.mpr
      ⟨_, List.mem_filter.mpr ⟨(List.mem_filter.mp hnotice).1, rfl⟩, rfl⟩
  reported := filter_isNoMember_notices

end

/-- A header with a static member that has no value. -/
def limitHeader : Header :=
  (parseHeader "class Limit\n\x7b\n    static int top;\n\x7d;\n" "Limit.h").1

/-- A source that gives a member a value. -/
def limitSource (path member value : Text) : Source :=
  (parseSource ("int Limit::" ++ member ++ " = " ++ value ++ ";\n") path).1

/-- Two sources with a value for the member, and one that names a member that there is not. -/
def limitSources : List Source :=
  [limitSource "a.cpp" "top" "7", limitSource "b.cpp" "top" "9", limitSource "c.cpp" "low" "0"]

/-- The member gets the value of the first source, and the last one is reported. -/
theorem initialized_limit :
    (∃ t ∈ (Plan.ofParts [limitHeader] limitSources).types,
      t.members.map Member.initializer = [some ("7" : Text)]) ∧
    (PlanNotice.noMember "c" "Limit" "low").message
      ∈ (Plan.ofParts [limitHeader] limitSources).warnings := by
  have hsort : limitSources.mergeSort (fun a b => Text.precedes a.stem b.stem) = limitSources := by
    refine List.mergeSort_of_pairwise ?_
    decide +kernel
  have hread : ∀ path member value,
      ∃ text path', limitSource path member value = (parseSource text path').1 :=
    fun _ _ _ => ⟨_, _, rfl⟩
  have hsources : ∀ s ∈ limitSources, ∃ text path, s = (parseSource text path).1 := by
    rw [limitSources, List.forall_mem_cons, List.forall_mem_cons, List.forall_mem_singleton]
    exact ⟨hread _ _ _, hread _ _ _, hread _ _ _⟩
  have hall : Initialized [limitHeader] limitSources :=
    initialized_ofParts hsources (by decide +kernel)
  have hfirst : ∀ owner name, firstInit? limitSources owner name =
      ((limitSources.flatMap fun s => s.staticInits.map (s.stem, ·)).map Prod.snd).find?
        fun x => x.owner == owner && x.name == name := by
    intro owner name
    rw [firstInit?, allStaticInits, sourceOrderByStem, hsort]
  have hbefore : typesBefore [limitHeader] limitSources = limitHeader.types := by
    rw [typesBefore, sourceOrderByStem, hsort]
    decide +kernel
  constructor
  · have hnames : (Plan.ofParts [limitHeader] limitSources).types.map TypeDecl.name
        = [("Limit" : Text)] := by
      rw [Plan.ofParts, reconcileTypes]
      dsimp only
      rw [hsort]
      decide +kernel
    obtain ⟨t, htypes, hname⟩ := List.map_eq_singleton_iff.mp hnames
    have ht : t ∈ (Plan.ofParts [limitHeader] limitSources).types := by simp [htypes]
    obtain ⟨d, hd, -, hmembers⟩ := hall.members t ht
    refine ⟨t, ht, ?_⟩
    simp only [hname, hfirst] at hmembers
    rw [hmembers]
    clear hmembers
    revert d
    decide +kernel
  · have hlow : ∀ d ∈ limitHeader.types, ∀ m ∈ d.members, m.name ≠ "low" := by
      decide +kernel
    have hinits : (limitSource "c.cpp" "low" "0").staticInits.map
        (fun x => (x.owner, x.name)) = [(("Limit" : Text), ("low" : Text))] := by
      decide +kernel
    obtain ⟨x, hx, hnames⟩ := List.map_eq_singleton_iff.mp hinits
    obtain ⟨howner, hname⟩ := Prod.mk.inj hnames
    have hwarned := hall.warned _ (by simp [limitSources]) x (hx ▸ List.mem_singleton_self x)
      fun i d _ hd m hm => by
        rw [hbefore] at hd
        rw [hname]
        exact hlow d (List.mem_of_getElem? hd) m hm
    have hstem : (limitSource "c.cpp" "low" "0").stem = "c" := by decide +kernel
    rw [howner, hname, hstem] at hwarned
    exact hwarned

end Sharpen
