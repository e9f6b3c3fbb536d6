import Mathlib.Data.List.Basic
import Mathlib.Data.List.Nodup
import Mathlib.Data.List.Perm.Basic
import Sharpen.Plan.Texts
import Sharpen.Proofs.Plan.LocalOwner
import Sharpen.Proofs.Source.Marks

/-!
# Free Functions Among the Types

Free functions are handed out source by source, between implementations that complete or join the
methods of types. This module follows them to the types that get them and into the files of the
plan: each is shown once, reported, or lost with an owner that is not shown.

A local function is carried by one task of the run, for the owner that was chosen before. What a
type has at the end is its local functions from all tasks, in their order. The functions that files
show are then counted by permutations: those of the shown places, gathered by owner. The remaining
ones have an owner that is not shown, or none at all, which is reported.

## Main definitions

* `HoldLocals` — the invariant: which local functions the types have; `HoldLocals.perform` keeps it
  over a task and `HoldLocals.foldl` over a run.
* `LocalsSettled`, `locals_settled` — what becomes of all free functions, for all headers and
  sources.
* `Task.localsFor` — the local functions that a task hands to the type at place `i`.
* `Task.IsMarked` — whether what a task hands out is marked for what it is: local functions, which
  have bodies, and implementations, which are none.
* `Source.shownLocals` — the local functions of a source as they are shown.

## Main results

* `perm_locals_typesAfter` — the local functions of every type at the end.
* `perm_shownLocals` — the local functions that the files show.
* `not_forall_locals_shown` — a free function that is lost.
* `holdLocals_poolAfter` — the local functions of the types after the run.
-/

namespace Sharpen

/-! ### Handing out -/

/-- Changing an element without a property into another such element leaves those with the
property. -/
theorem filter_modify_of_eq_false {α : Type} {p : α → Bool} {f : α → α} {l : List α} {j : Nat}
    {a : α} (ha : l[j]? = some a) (hp : p a = false) (hf : p (f a) = false) :
    (l.modify j f).filter p = l.filter p := by
  obtain ⟨hlt, rfl⟩ := List.getElem?_eq_some_iff.mp ha
  have hl : l = l.take j ++ l[j] :: l.drop (j + 1) := by
    rw [← List.drop_eq_getElem_cons hlt, List.take_append_drop]
  have hmodify : l.modify j f = l.take j ++ f l[j] :: l.drop (j + 1) :=
    List.modify_eq_take_cons_drop hlt
  have hold := congrArg (List.filter p) hl
  rw [List.filter_append, List.filter_cons_of_neg (by simp [hp])] at hold
  rw [hmodify, List.filter_append, List.filter_cons_of_neg (by simp [hf]), ← hold]

/-- Where the local functions and constants of a source go: to one type, or nowhere. -/
theorem attachLocals_types_eq (dir : Directory) (pool : Pool) (s : Source) :
    (attachLocals dir.registry dir.headers dir.interfaces pool s).types
      = match ownerOfLocals dir.registry dir.headers dir.interfaces s with
        | none => pool.types
        | some i => pool.types.modify i (·.addLocals s) := by
  rw [attachLocals]
  cases ownerOfLocals dir.registry dir.headers dir.interfaces s with
  | none =>
      dsimp only
      split
      · rfl
      · rfl
  | some i => rfl

/-- The local functions that a task hands to the type at place `i`. -/
def Task.localsFor (dir : Directory) (i : Nat) : Task → List Method
  | .locals s =>
    if ownerOfLocals dir.registry dir.headers dir.interfaces s = some i then s.locals else []
  | .implementation _ _ | .staticInit _ _ => []

/-- Whether what a task hands out is marked for what it is: local functions, which have bodies, and
implementations, which are none. -/
def Task.IsMarked : Task → Prop
  | .implementation _ impl => impl.isLocal = false
  | .staticInit _ _ => True
  | .locals s => ∀ m ∈ s.locals, m.isLocal = true ∧ m.body.isSome = true

/-- **The invariant of handing out local functions**: those among the methods of the type at each
place are the given ones, and all of them have bodies. -/
structure HoldLocals (functions : Nat → List Method) (types : List TypeDecl) : Prop where
  held : ∀ i c, types[i]? = some c →
    c.methods.filter Method.isLocal = (functions i).map (·.ownedBy c.name)
  bodies : ∀ i, HaveBodies (functions i)

namespace HoldLocals

variable {functions : Nat → List Method} {types : List TypeDecl}

/-- A method without a body is no local function. -/
theorem isLocal_eq_false (h : HoldLocals functions types) {i : Nat} {c : TypeDecl} {m : Method}
    (hc : types[i]? = some c) (hm : m ∈ c.methods) (hbody : m.body = none) :
    m.isLocal = false := by
  by_contra hlocal
  have hmem : m ∈ c.methods.filter Method.isLocal :=
    List.mem_filter.mpr ⟨hm, by simpa using hlocal⟩
  rw [h.held i c hc] at hmem
  obtain ⟨k, hk, rfl⟩ := List.mem_map.mp hmem
  have hfull : k.body.isSome = true := h.bodies i k hk
  rw [show k.body = none from hbody] at hfull
  cases hfull

/-- Changing a type in a way that leaves its local functions. -/
theorem modify (h : HoldLocals functions types) {k : Nat} {f : TypeDecl → TypeDecl}
    (hname : ∀ c, (f c).name = c.name)
    (hf : ∀ c, types[k]? = some c →
      (f c).methods.filter Method.isLocal = c.methods.filter Method.isLocal) :
    HoldLocals functions (types.modify k f) := by
  refine ⟨fun i c hc => ?_, h.bodies⟩
  rw [List.getElem?_modify] at hc
  obtain ⟨b, hb, rfl⟩ := Option.map_eq_some_iff.mp hc
  by_cases hk : k = i
  · subst hk
    rw [if_pos rfl, hf b hb, hname]
    exact h.held k b hb
  · rw [if_neg hk]
    exact h.held i b hb

/-- An implementation leaves the local functions of all types. -/
theorem perform_implementation {dir : Directory} {pool : Pool} {stem : Text} {impl : Method}
    (h : HoldLocals functions pool.types) (himpl : impl.isLocal = false) :
    HoldLocals functions (attachImplementation dir.registry stem pool impl).types := by
  rw [attachImplementation_types]
  cases hfate : fateOf dir.registry pool.types impl with
  | dropped => exact h
  | merged k j =>
      refine h.modify (fun _ => rfl) fun c hc => ?_
      obtain ⟨-, -, d, m, -, -, hd, hm, -, hbody, -⟩ := exists_of_fateOf_eq_merged hfate
      obtain rfl : c = d := Option.some.inj (hc.symm.trans hd)
      have hlocal := h.isLocal_eq_false hd (List.mem_of_getElem? hm) hbody
      exact filter_modify_of_eq_false hm hlocal hlocal
  | kept k m =>
      have hm : m.isLocal = false := by
        obtain ⟨-, rfl | rfl⟩ := fateOf_eq_kept hfate <;> exact himpl
      refine h.modify (fun _ => rfl) fun c _ => ?_
      rw [TypeDecl.addMethods, List.filter_append, List.filter_cons_of_neg (by simp [hm]),
        List.filter_nil, List.append_nil]

/-- **Every task keeps the invariant.** -/
theorem perform (dir : Directory) {pool : Pool} {t : Task} (h : HoldLocals functions pool.types)
    (ht : t.IsMarked) :
    HoldLocals (fun i => functions i ++ t.localsFor dir i) (t.perform dir pool).types := by
  cases t with
  | implementation stem impl =>
      simp only [Task.localsFor, List.append_nil]
      exact h.perform_implementation ht
  | staticInit stem init =>
      simp only [Task.localsFor, List.append_nil, Task.perform]
      rcases attachStaticInit_types dir.registry stem pool init with hsame | ⟨k, j, hsame⟩
      · rw [hsame]
        exact h
      · rw [hsame]
        exact h.modify (fun _ => rfl) fun _ _ => rfl
  | locals s =>
      refine ⟨fun i c hc => ?_, fun i => (h.bodies i).append ?_⟩
      · rw [Task.perform, attachLocals_types_eq] at hc
        rw [Task.localsFor]
        cases howner : ownerOfLocals dir.registry dir.headers dir.interfaces s with
        | none =>
            rw [howner] at hc
            simpa using h.held i c hc
        | some k =>
            rw [howner] at hc
            dsimp only at hc
            rw [List.getElem?_modify] at hc
            obtain ⟨b, hb, rfl⟩ := Option.map_eq_some_iff.mp hc
            by_cases hk : k = i
            · subst hk
              have hall : (s.locals.map (·.ownedBy b.name)).filter Method.isLocal
                  = s.locals.map (·.ownedBy b.name) := by
                refine List.filter_eq_self.mpr fun m hm => ?_
                obtain ⟨l, hl, rfl⟩ := List.mem_map.mp hm
                exact (ht l hl).1
              rw [if_pos rfl, if_pos rfl, TypeDecl.addLocals, List.filter_append, h.held k b hb,
                hall, List.map_append]
            · rw [if_neg hk, if_neg (by simpa using hk), List.append_nil]
              exact h.held i b hb
      · intro m hm
        rw [Task.localsFor] at hm
        split at hm
        · exact (ht m hm).2
        · cases hm

/-- **Every run keeps the invariant.** -/
theorem foldl (dir : Directory) {tasks : List Task} {pool : Pool}
    (h : HoldLocals functions pool.types) (htasks : ∀ t ∈ tasks, t.IsMarked) :
    HoldLocals (fun i => functions i ++ tasks.flatMap (Task.localsFor dir i))
      (tasks.foldl (Task.perform dir) pool).types := by
  induction tasks generalizing functions pool with
  | nil => simpa using h
  | cons t r ih =>
      have hstep := h.perform dir (htasks t List.mem_cons_self)
      have hrest := ih hstep fun u hu => htasks u (List.mem_cons_of_mem _ hu)
      rw [List.foldl_cons]
      simpa only [List.flatMap_cons, List.append_assoc] using hrest

end HoldLocals

section

variable (headers : List Header) (sources : List Source)

/-- The local functions that the type at place `i` gets. -/
def localsAt (i : Nat) : List Method :=
  ((sourceOrderByStem sources).filter fun s => ownerPlace? headers sources s == some i).flatMap
    Source.locals

/-- The tasks of the run hand a type the local functions of the sources that it owns. -/
theorem flatMap_localsFor_allTasks (i : Nat) :
    (allTasks sources).flatMap (Task.localsFor (directoryFor headers sources) i)
      = localsAt headers sources i := by
  have hsource : ∀ s : Source, s.tasks.flatMap (Task.localsFor (directoryFor headers sources) i)
      = if ownerPlace? headers sources s = some i then s.locals else [] := by
    intro s
    have hmethods : (s.methods.map (Task.implementation s.stem)).flatMap
        (Task.localsFor (directoryFor headers sources) i) = [] :=
      List.flatMap_eq_nil_iff.mpr fun t ht => by obtain ⟨m, -, rfl⟩ := List.mem_map.mp ht; rfl
    have hinits : (s.staticInits.map (Task.staticInit s.stem)).flatMap
        (Task.localsFor (directoryFor headers sources) i) = [] :=
      List.flatMap_eq_nil_iff.mpr fun t ht => by obtain ⟨m, -, rfl⟩ := List.mem_map.mp ht; rfl
    rw [Source.tasks, List.flatMap_append, List.flatMap_append, hmethods, hinits,
      List.flatMap_singleton]
    rfl
  rw [allTasks, List.flatMap_assoc, localsAt]
  simp only [hsource]
  have hnone : ∀ s : Source, (ownerPlace? headers sources s == some i) = false →
      (if ownerPlace? headers sources s = some i then s.locals else []) = [] :=
    fun s hs => if_neg (by simpa using hs)
  rw [← flatMap_filter_of_eq_nil hnone]
  refine List.flatMap_congr fun s hs => ?_
  rw [if_pos (by simpa using (List.mem_filter.mp hs).2)]

variable {headers sources}

/-- **The local functions of the types after the run.** -/
theorem holdLocals_poolAfter (hheaders : ∀ h ∈ headers, Unmarked h.types)
    (hsources : ∀ s ∈ sources, s.IsMarked) :
    HoldLocals (localsAt headers sources) (poolAfter headers sources).types := by
  have hread : ∀ d ∈ typesBefore headers sources, ∀ m ∈ d.methods, m.isLocal = false := by
    intro d hd
    rcases List.mem_append.mp hd with hd | hd
    · obtain ⟨h, hh, hd⟩ := List.mem_flatMap.mp hd
      exact hheaders h (List.mem_mergeSort.mp hh) d hd
    · obtain ⟨s, hs, hd⟩ := List.mem_flatMap.mp hd
      exact (hsources s (List.mem_mergeSort.mp hs)).structs d hd
  have hstart : HoldLocals (fun _ => []) (poolBefore headers sources).types := by
    refine ⟨fun i c hc => ?_, fun _ => HaveBodies.nil⟩
    refine List.filter_eq_nil_iff.mpr fun m hm => ?_
    simp [hread c (List.mem_of_getElem? hc) m hm]
  have htasks : ∀ t ∈ allTasks sources, t.IsMarked := by
    intro t ht
    obtain ⟨s, hs, ht⟩ := List.mem_flatMap.mp ht
    have hmarked := hsources s (List.mem_mergeSort.mp hs)
    simp only [Source.tasks, List.mem_append, List.mem_map, List.mem_singleton] at ht
    rcases ht with (⟨m, hm, rfl⟩ | ⟨init, -, rfl⟩) | rfl
    · exact hmarked.methods m hm
    · trivial
    · exact hmarked.locals
  have hrun := hstart.foldl (directoryFor headers sources) htasks
  simp only [List.nil_append, flatMap_localsFor_allTasks] at hrun
  exact hrun

/-- Settling a type only reorders its methods. -/
theorem perm_methods_settle (i : Nat) (d : TypeDecl) :
    (settle headers sources i d).methods.Perm d.methods := by
  rw [settle]
  split
  · rw [orderMethods]
    refine ((List.mergeSort_perm _ _).append_left _).trans ?_
    rw [List.take_append_drop]
  · exact List.Perm.refl _

/-- **The local functions of a type at the end** are those of the sources that it owns, each
once. -/
theorem perm_locals_typesAfter (hheaders : ∀ h ∈ headers, Unmarked h.types)
    (hsources : ∀ s ∈ sources, s.IsMarked) {i : Nat} {f : TypeDecl}
    (hf : (typesAfter headers sources)[i]? = some f) :
    (f.methods.filter Method.isLocal).Perm
      ((localsAt headers sources i).map (·.ownedBy f.name)) := by
  rw [getElem?_typesAfter] at hf
  obtain ⟨c, hc, rfl⟩ := Option.map_eq_some_iff.mp hf
  have hname : (settle headers sources i c).name = c.name :=
    congrArg Prod.fst (head_settle i c)
  rw [hname, ← (holdLocals_poolAfter hheaders hsources).held i c hc]
  exact (perm_methods_settle i c).filter _

/-- Local functions that no type gets are reported. -/
theorem unowned_mem_warnings {s : Source} (hs : s ∈ sources) (hlocals : s.locals ≠ [])
    (howner : ownerPlace? headers sources s = none) :
    (PlanNotice.unowned s.stem s.locals.length s.constants.length).message
      ∈ (Plan.ofParts headers sources).warnings := by
  have htask : Task.locals s ∈ allTasks sources := by
    refine List.mem_flatMap.mpr ⟨s, List.mem_mergeSort.mpr hs, ?_⟩
    exact List.mem_append_right _ (List.mem_singleton_self _)
  obtain ⟨ts, us, htasks⟩ := List.append_of_mem htask
  have hpool : PlanNotice.unowned s.stem s.locals.length s.constants.length
      ∈ (poolAfter headers sources).notices := by
    rw [poolAfter, htasks, List.foldl_append, List.foldl_cons]
    refine (notices_foldl_perform _ _ _).subset ?_
    rw [ownerPlace?] at howner
    rw [Task.perform, attachLocals, howner]
    dsimp only
    rw [if_neg (by simp [hlocals])]
    exact List.mem_append_right _ (List.mem_singleton_self _)
  refine List.mem_map.mpr ⟨_, List.mem_filter.mpr ⟨?_, rfl⟩, rfl⟩
  rw [Plan.ofParts, reconcileTypes_eq]
  exact List.mem_append_left _ (List.mem_append_left _ hpool)

/-! ### Shown local functions -/

variable (headers sources) in
/-- The local functions of a source as they are shown. -/
def Source.shownLocals (s : Source) : List Method :=
  ((s.shownOwner? headers sources).map fun d => s.locals.map (·.ownedBy d.name)).getD []

/-- The local functions at a shown place. -/
theorem perm_filter_methodsAt (hheaders : ∀ h ∈ headers, Unmarked h.types)
    (hsources : ∀ s ∈ sources, s.IsMarked) {i : Nat} (hi : i ∈ shownPlaces headers sources) :
    ((methodsAt headers sources i).filter Method.isLocal).Perm
      (((sourceOrderByStem sources).filter fun s =>
        ownerPlace? headers sources s == some i).flatMap (Source.shownLocals headers sources)) := by
  obtain ⟨d, hd⟩ := exists_type_of_mem_shownPlaces hi
  obtain ⟨f, hf, hhead⟩ := exists_typesAfter hd
  have hname : f.name = d.name := congrArg Prod.fst hhead
  have hlocals := perm_locals_typesAfter hheaders hsources hf
  rw [hname, localsAt, List.map_flatMap] at hlocals
  rw [methodsAt, hf]
  refine hlocals.trans (List.Perm.of_eq (List.flatMap_congr fun s hs => ?_))
  have howner : ownerPlace? headers sources s = some i := by
    simpa using (List.mem_filter.mp hs).2
  rw [Source.shownLocals, Source.shownOwner?, howner, Option.bind_some, if_pos hi, hd]
  rfl

/-- **The local functions that are shown** are those of the sources whose owners are shown, each
once. Gathering the sources by owner gives those whose owner is shown. -/
theorem perm_shownLocals (hheaders : ∀ h ∈ headers, Unmarked h.types)
    (hsources : ∀ s ∈ sources, s.IsMarked) :
    ((Plan.ofParts headers sources).shownMethods.filter Method.isLocal).Perm
      (sources.flatMap (Source.shownLocals headers sources)) := by
  have hplaces := (perm_shownMethods headers sources).filter Method.isLocal
  rw [List.filter_flatMap] at hplaces
  have hnodup : ((shownPlaces headers sources).map some).Nodup :=
    (nodup_shownPlaces headers sources).map fun _ _ => Option.some.inj
  have hgathered := perm_flatMap_filter (ownerPlace? headers sources) (sourceOrderByStem sources)
    hnodup
  rw [List.flatMap_map] at hgathered
  have hhidden : ∀ s : Source, ((shownPlaces headers sources).map some).contains
      (ownerPlace? headers sources s) = false → s.shownLocals headers sources = [] := by
    intro s hs
    rw [Source.shownLocals, Source.shownOwner?]
    cases howner : ownerPlace? headers sources s with
    | none => rfl
    | some i =>
        have hi : i ∉ shownPlaces headers sources := by simpa [howner] using hs
        rw [Option.bind_some, if_neg hi]
        rfl
  refine hplaces.trans ?_
  refine (List.Perm.flatMap_left _ fun i hi => perm_filter_methodsAt hheaders hsources hi).trans ?_
  rw [← List.flatMap_assoc]
  refine (hgathered.flatMap_right _).trans ?_
  rw [flatMap_filter_of_eq_nil hhidden]
  exact (List.mergeSort_perm _ _).flatMap_right _

/-! ### All free functions -/

variable (headers sources) in
/-- **What becomes of all free functions.** -/
structure LocalsSettled : Prop where
  /-- The local functions in sections of classes and in types that sources define are those of the
  sources with an owner that is shown, each once. -/
  shown : ((Plan.ofParts headers sources).shownMethods.filter Method.isLocal).Perm
    (sources.flatMap (Source.shownLocals headers sources))
  /-- The local functions of all other sources are reported, or they are lost. -/
  hidden : ∀ s ∈ sources, s.locals ≠ [] → s.shownOwner? headers sources = none →
    (PlanNotice.unowned s.stem s.locals.length s.constants.length).message
        ∈ (Plan.ofParts headers sources).warnings ∨
      s.LosesLocals headers sources
  /-- What is lost is not shown, though the source has an owner. -/
  lost : ∀ s ∈ sources, s.LosesLocals headers sources →
    ownerPlace? headers sources s ≠ none ∧ s.shownOwner? headers sources = none

/-- **Every free function is shown once or reported, unless it is lost**, for all headers and
sources whose marks are as they are read. -/
theorem locals_settled (hheaders : ∀ h ∈ headers, Unmarked h.types)
    (hsources : ∀ s ∈ sources, s.IsMarked) : LocalsSettled headers sources where
  shown := perm_shownLocals hheaders hsources
  hidden := by
    intro s hs hlocals hnone
    cases howner : ownerPlace? headers sources s with
    | none => exact Or.inl (unowned_mem_warnings hs hlocals howner)
    | some i => exact Or.inr (losesLocals_iff.mpr ⟨by simp [howner], hnone⟩)
  lost := fun _ _ => losesLocals_iff.mp

end

/-- A source with one free function. -/
def twiceSource : Source :=
  (parseSource "int twice(int n)\n\x7b\n    return n + n;\n\x7d\n" "Store.cpp").1

/-- The header of the same name with the given text. -/
def twiceHeader (text : Text) : Header :=
  (parseHeader text "Store.h").1

/-- Without implementations the class of the header owns the free function. -/
theorem locals_settled_twice :
    (twiceSource.shownOwner? [twiceHeader "class Store\n\x7b\n\x7d;\n"] [twiceSource]).map
        TypeDecl.name = some ("Store" : Text) ∧
      LocalsSettled [twiceHeader "class Store\n\x7b\n\x7d;\n"] [twiceSource] := by
  refine ⟨by decide +kernel, locals_settled (fun h hh d hd => ?_) fun s hs => ?_⟩
  · obtain rfl := List.mem_singleton.mp hh
    exact (isDeclaredIn_parseHeader _ _ d hd).methods
  · obtain rfl := List.mem_singleton.mp hs
    exact isMarked_parseSource _ _

/-- **A free function can be lost**: not for all headers and sources that are read from texts is
every free function in a section of a class, in a type that a source defines, or reported. -/
theorem not_forall_locals_shown :
    ¬ ∀ (headers : List Header) (sources : List Source),
      (∀ h ∈ headers, ∃ text path, h = (parseHeader text path).1) →
      (∀ s ∈ sources, ∃ text path, s = (parseSource text path).1) →
      ∀ s ∈ sources, ∀ m ∈ s.locals,
        (∃ k ∈ (Plan.ofParts headers sources).shownMethods, k.name = m.name ∧ k.body = m.body) ∨
          (PlanNotice.unowned s.stem s.locals.length s.constants.length).message
            ∈ (Plan.ofParts headers sources).warnings := by
  intro hall
  have hshown := hall
    [twiceHeader "class IStore\n\x7b\n    virtual int Count() = 0;\n\x7d;\n"] [twiceSource]
    (fun _ hh => ⟨_, _, List.mem_singleton.mp hh⟩) (fun _ hs => ⟨_, _, List.mem_singleton.mp hs⟩)
  revert hshown
  decide +kernel

end Sharpen
