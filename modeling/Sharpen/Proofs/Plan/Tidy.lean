import Sharpen.Plan.Texts
import Sharpen.Proofs.Plan.Task
import Sharpen.Proofs.Source.Tidy

/-!
# Tidy Plans

Bringing headers and sources together moves declarations, joins them and orders them, but makes no
texts of its own beyond a comment and the names of some files. So a plan that is made from texts is
tidy: every type it lays out is, and its files have names, namespaces and banners on single lines.

The proof goes through the run as it is spelled out by tasks, and through the laying out of types
file by file. Each operation keeps what is tidy, so it is one lemma for each. What is made on the
way is a comment on an ambiguous method and names of files that are put together from names of
files; all of these are on one line.

## Main definitions

* `Plan.Tidy`, `tidy_ofTexts` — the plan for header and source texts.
* `Pool.Tidy` — all types of a pool are tidy.
* `Reconciled.Tidy` — everything that files are made from is tidy.
* `Section.Tidy` — a part of a type is tidy if the type is and its methods are.
* `OutputFile.Tidy` — everything that is written into a file is tidy.

## Main results

* `Method.Tidy.merge` — a declaration with its implementation.
* `tidy_reconcileTypes` — the types once everything has been handed out.
* `tidy_poolAfter` — no task takes away that the types are tidy.
-/

namespace Sharpen

open LineClass

/-! ### Merging -/

/-- The first of two texts, or the second in its place, is covered when both are. -/
theorem covers_nonemptyOr {S : LineClass} {t u : Text} (ht : S.Covers t) (hu : S.Covers u) :
    S.Covers (nonemptyOr t u) := by
  rw [nonemptyOr]
  split
  · exact hu
  · exact ht

/-- What holds of the entries of two lists holds of those of the one that is taken. -/
theorem forall_mem_nonemptyOr {α : Type} {P : α → Prop} {l r : List α} (hl : ∀ a ∈ l, P a)
    (hr : ∀ a ∈ r, P a) : ∀ a ∈ nonemptyOr l r, P a := by
  rw [nonemptyOr]
  split
  · exact hr
  · exact hl

/-- A parameter that both sides have. -/
theorem Parameter.Tidy.merge {d i : Parameter} (hd : d.Tidy) (hi : i.Tidy) : (d.merge i).Tidy where
  baseType := hd.baseType
  name := covers_nonemptyOr hi.name hd.name
  value := hd.value
  comments := forall_mem_nonemptyOr hi.comments hd.comments

/-- Tidy parameters are tidy when they are merged. -/
theorem tidy_mergeParameters {ds is : List Parameter} (hd : ∀ p ∈ ds, p.Tidy)
    (hi : ∀ p ∈ is, p.Tidy) : ∀ p ∈ mergeParameters ds is, p.Tidy := by
  fun_induction mergeParameters ds is with
  | case1 ps => exact hi
  | case2 ps => exact hd
  | case3 d ds i is ih =>
      obtain ⟨hd, hds⟩ := List.forall_mem_cons.mp hd
      obtain ⟨hi, his⟩ := List.forall_mem_cons.mp hi
      exact List.forall_mem_cons.mpr ⟨hd.merge hi, ih hds his⟩

/-- **A declaration with its implementation.** -/
theorem Method.Tidy.merge {d i : Method} (hd : d.Tidy) (hi : i.Tidy) : (d.merge i).Tidy :=
  { hd with
    parameters := tidy_mergeParameters hd.parameters hi.parameters
    initializers := forall_mem_nonemptyOr hi.initializers hd.initializers
    targetFile := hi.targetFile
    sourceComments := hi.sourceComments
    sourceRegionStart := hi.sourceRegionStart
    sourceRegionEnd := hi.sourceRegionEnd }

/-! ### The pool -/

/-- All types of a pool are tidy. -/
def Pool.Tidy (p : Pool) : Prop :=
  ∀ d ∈ p.types, d.Tidy

namespace Pool.Tidy

variable {pool : Pool} (h : pool.Tidy)

include h

/-- Changing one type of a tidy pool leaves it tidy if the change leaves tidy types tidy. -/
theorem modify {f : TypeDecl → TypeDecl} (hf : ∀ d, d.Tidy → (f d).Tidy) (i : Nat) :
    (pool.modify i f).Tidy :=
  forall_mem_modify h hf i

/-- So does changing one method. -/
theorem modifyMethod {f : Method → Method} (hf : ∀ m, m.Tidy → (f m).Tidy) (i j : Nat) :
    (pool.modifyMethod i j f).Tidy := by
  refine h.modify (fun d hd => ?_) i
  exact { hd with methods := forall_mem_modify hd.methods hf j }

/-- So does adding a tidy method. -/
theorem addMethod {m : Method} (hm : m.Tidy) (i : Nat) : (pool.addMethod i m).Tidy := by
  refine h.modify (fun d hd => ?_) i
  exact { hd with methods := forall_mem_concat hd.methods hm }

/-- So does a notice. -/
theorem report (n : PlanNotice) : (pool.report n).Tidy :=
  h

/-- An implementation. -/
theorem attachImplementation {m : Method} (hm : m.Tidy) (registry : Registry) (stem : Text) :
    (attachImplementation registry stem pool m).Tidy := by
  have hmerge : ∀ k : Method, k.Tidy → (k.merge m).Tidy := fun _ hk => hk.merge hm
  rw [Sharpen.attachImplementation]
  split
  · exact h
  · split
    · exact h.modifyMethod hmerge _ _
    · exact (h.report _).modifyMethod hmerge _ _
    · have hcomment : oneLine.Covers ambiguousComment := covers_literal (by decide)
      refine (h.report _).addMethod ?_ _
      refine { hm with sourceComments := ?_ }
      exact forall_mem_concat hm.sourceComments hcomment
    · exact (h.addMethod hm _).report _

/-- The value of a static member. -/
theorem attachStaticInit {init : StaticInit} (hinit : noReturn.Covers init.value)
    (registry : Registry) (stem : Text) : (attachStaticInit registry stem pool init).Tidy := by
  simp only [Sharpen.attachStaticInit]
  split
  · exact h
  · refine h.modify (fun d hd => ?_) _
    refine { hd with members := forall_mem_modify hd.members (fun m hm => ?_) _ }
    refine { hm with initializer := fun v hv => ?_ }
    rcases Option.or_eq_some_iff.mp hv with hv | ⟨-, hv⟩
    · exact hm.initializer v hv
    · exact Option.some.inj hv ▸ hinit

/-- Local functions and constants. -/
theorem attachLocals {source : Source} (hsource : source.Tidy) (registry : Registry)
    (headers : List PlacedHeader) (interfaces : List Text) :
    (attachLocals registry headers interfaces pool source).Tidy := by
  rw [Sharpen.attachLocals]
  split
  · split
    · exact h
    · exact h
  · refine h.modify (fun d hd => ?_) _
    refine { hd with methods := ?_, sourceConstants := ?_ }
    · refine List.forall_mem_append.mpr ⟨hd.methods, fun m hm => ?_⟩
      obtain ⟨k, hk, rfl⟩ := List.mem_map.mp hm
      exact { hsource.locals k hk with }
    · exact List.forall_mem_append.mpr ⟨hd.sourceConstants, hsource.constants⟩

end Pool.Tidy

/-! ### Headers and sources together -/

/-- The methods in their order are the methods. -/
theorem mem_of_mem_orderMethods {rank : Text → Nat} {n : Nat} {methods : List Method} {m : Method}
    (hm : m ∈ orderMethods rank n methods) : m ∈ methods := by
  rcases List.mem_append.mp hm with hm | hm
  · exact List.mem_of_mem_take hm
  · exact List.mem_of_mem_drop (List.mem_mergeSort.mp hm)

/-- The sources with their embedded types as they became are tidy. -/
theorem tidy_restoreStructs {types : List TypeDecl} (htypes : ∀ d ∈ types, d.Tidy)
    {sources : List Source} (h : ∀ s ∈ sources, s.Tidy) (place : Nat) :
    ∀ s ∈ restoreStructs types place sources, s.Tidy := by
  induction sources generalizing place with
  | nil => exact h
  | cons s r ih =>
      obtain ⟨hs, hr⟩ := List.forall_mem_cons.mp h
      refine List.forall_mem_cons.mpr ⟨{ hs with structs := fun d hd => ?_ }, ih hr _⟩
      exact htypes d (List.mem_of_mem_drop (List.mem_of_mem_take hd))

/-- Everything that files are made from is tidy. -/
structure Reconciled.Tidy (r : Reconciled) : Prop where
  headers : ∀ h ∈ r.headers, h.Tidy
  sources : ∀ s ∈ r.sources, s.Tidy
  types : ∀ d ∈ r.types, d.Tidy

section

variable {headers : List Header} {sources : List Source}
  (hheaders : ∀ h ∈ headers, h.Tidy) (hsources : ∀ s ∈ sources, s.Tidy)

include hheaders hsources

/-- The types that a plan starts from are tidy. -/
theorem tidy_typesBefore : ∀ d ∈ typesBefore headers sources, d.Tidy := by
  refine List.forall_mem_append.mpr ⟨fun d hd => ?_, fun d hd => ?_⟩
  · obtain ⟨h, hh, hd⟩ := List.mem_flatMap.mp hd
    exact (hheaders h (List.mem_mergeSort.mp hh)).types d hd
  · obtain ⟨s, hs, hd⟩ := List.mem_flatMap.mp hd
    exact (hsources s (List.mem_mergeSort.mp hs)).structs d hd

/-- **No task takes away that the types are tidy.** -/
theorem tidy_poolAfter : (poolAfter headers sources).Tidy := by
  refine List.foldlRecOn (motive := Pool.Tidy) _ _ (tidy_typesBefore hheaders hsources)
    fun pool hpool task htask => ?_
  obtain ⟨s, hs, htask⟩ := List.mem_flatMap.mp htask
  have hsource := hsources s (List.mem_mergeSort.mp hs)
  simp only [Source.tasks, List.mem_append, List.mem_map, List.mem_singleton] at htask
  obtain (⟨m, hm, rfl⟩ | ⟨init, hinit, rfl⟩) | rfl := htask
  · exact hpool.attachImplementation (hsource.methods m hm) _ _
  · exact hpool.attachStaticInit (hsource.staticInits init hinit) _ _
  · exact hpool.attachLocals hsource _ _ _

/-- So are those that it ends with. -/
theorem tidy_typesAfter : ∀ d ∈ typesAfter headers sources, d.Tidy := by
  intro d hd
  obtain ⟨i, hi, rfl⟩ := List.mem_mapIdx.mp hd
  have hold := tidy_poolAfter hheaders hsources _ (List.getElem_mem hi)
  rw [settle]
  split
  · exact { hold with methods := fun m hm => hold.methods m (mem_of_mem_orderMethods hm) }
  · exact hold

/-- **Headers and sources that are tidy are so together.** -/
theorem tidy_reconcileTypes : (reconcileTypes headers sources).Tidy := by
  have htypes := tidy_typesAfter hheaders hsources
  rw [reconcileTypes_eq]
  refine ⟨fun h hh => hheaders h (List.mem_mergeSort.mp hh), ?_, fun d hd => ?_⟩
  · exact tidy_restoreStructs htypes (fun s hs => hsources s (List.mem_mergeSort.mp hs)) _
  · obtain ⟨i, -, hi⟩ := List.mem_filterMap.mp hd
    exact htypes d (List.mem_of_getElem? hi)

end

/-! ### Files -/

/-- A part of a type is tidy if the type is and its methods are. -/
structure Section.Tidy (s : Section) : Prop where
  type : s.type.Tidy
  methods : ∀ m ∈ s.methods, m.Tidy

/-- Everything that is written into a file is tidy. -/
structure OutputFile.Tidy (f : OutputFile) : Prop where
  name : oneLine.Covers f.name
  headerStem : oneLine.Covers f.headerStem
  banner : ∀ l ∈ f.banner, oneLine.Covers l
  sections : ∀ s ∈ f.sections, s.Tidy
  embedded : ∀ d ∈ f.embedded, d.Tidy

/-- All files are tidy. -/
def FileTable.Tidy (t : FileTable) : Prop :=
  ∀ f ∈ t.files, f.Tidy

namespace FileTable.Tidy

variable {t : FileTable} (h : t.Tidy)

include h

/-- Changing one file of a tidy table leaves it tidy if the change leaves tidy files tidy. -/
theorem update {name : Text} {f : OutputFile → OutputFile} (hname : oneLine.Covers name)
    (hf : ∀ g, g.Tidy → (f g).Tidy) : (t.update name f).Tidy := by
  have hempty : OutputFile.Tidy { name := name } :=
    ⟨hname, covers_nil, by simp, by simp, by simp⟩
  rw [FileTable.update]
  split
  · exact forall_mem_modify h hf _
  · exact List.forall_mem_append.mpr ⟨h, List.forall_mem_singleton.mpr (hf _ hempty)⟩

/-- So does adding what a header has. -/
theorem addHeader {header : Header} (hheader : header.Tidy) : (addHeader t header).Tidy := by
  rw [Sharpen.addHeader]
  split
  · exact h
  · exact h.update hheader.stem fun f hf =>
      { hf with headerStem := hheader.stem, banner := hheader.banner }

/-- So does adding a section. -/
theorem addSection {name : Text} {s : Section} (hname : oneLine.Covers name) (hs : s.Tidy) :
    (t.addSection name s).Tidy :=
  h.update hname fun _ hf => { hf with sections := forall_mem_concat hf.sections hs }

/-- A part of a type that is split. -/
theorem addFragment {d : TypeDecl} (hd : d.Tidy) {target : Text} (htarget : oneLine.Covers target) :
    (addFragment d t target).Tidy := by
  have hmoved : oneLine.Covers (target ++ "_" ++ d.name) :=
    covers_append.mpr ⟨covers_append.mpr ⟨htarget, covers_literal (by decide)⟩, hd.name⟩
  have hmethods : ∀ m ∈ d.methods.filter (·.targetFile == target), m.Tidy := fun m hm =>
    hd.methods m (List.mem_filter.mp hm).1
  simp only [Sharpen.addFragment]
  refine FileTable.Tidy.update ?_ ?_ fun f hf => ?_
  · split
    · exact h
    · exact h
  · split
    · exact htarget
    · exact hmoved
  · exact { hf with
      headerStem := covers_nonemptyOr hf.headerStem hd.file
      sections := forall_mem_concat hf.sections ⟨hd, hmethods⟩ }

/-- **A type with all its parts.** -/
theorem addType {d : TypeDecl} (hd : d.Tidy) : (addType t d).Tidy := by
  simp only [Sharpen.addType]
  have hmain : ∀ (isMain isPartial : Bool) {methods : List Method}, (∀ m ∈ methods, m ∈ d.methods) →
      (t.addSection d.file
        { type := d, methods := methods, isMain := isMain, isPartial := isPartial }).Tidy :=
    fun _ _ _ hsub => h.addSection hd.file ⟨hd, fun m hm => hd.methods m (hsub m hm)⟩
  split
  · refine List.foldlRecOn (motive := FileTable.Tidy) _ _ ?_ fun t ht target htarget => ?_
    · exact hmain _ _ fun m hm => (List.mem_filter.mp hm).1
    · have hfile := (List.mem_filter.mp (List.mem_mergeSort.mp htarget)).1
      obtain ⟨m, hm, rfl⟩ := List.mem_map.mp (List.mem_eraseDups.mp hfile)
      exact ht.addFragment hd (hd.methods m hm).targetFile
  · exact hmain _ _ fun m hm => hm

/-- The types that a source defines, and its banner. The banner comes to the file after the types
have. -/
theorem addSource {s : Source} (hs : s.Tidy) : (addSource t s).Tidy := by
  have hbanner : ∀ {t : FileTable}, t.Tidy → (if (t.find? s.stem).isSome then
      t.update s.stem fun f => { f with banner := nonemptyOr f.banner s.banner } else t).Tidy := by
    intro t ht
    split
    · exact ht.update hs.stem fun f hf =>
        { hf with banner := forall_mem_nonemptyOr hf.banner hs.banner }
    · exact ht
  rw [Sharpen.addSource]
  refine hbanner ?_
  split
  · exact h
  · exact h.update hs.stem fun f hf =>
      { hf with embedded := List.forall_mem_append.mpr ⟨hf.embedded, hs.structs⟩ }

end FileTable.Tidy

/-- The files of a tidy plan are tidy. -/
theorem tidy_planFiles {r : Reconciled} (h : r.Tidy) : (planFiles r).Tidy := by
  have hempty : FileTable.Tidy {} := List.forall_mem_nil _
  have hheaders := List.foldlRecOn (motive := FileTable.Tidy) r.headers addHeader hempty
    fun t ht header hheader => ht.addHeader (h.headers header hheader)
  have htypes := List.foldlRecOn (motive := FileTable.Tidy) r.types addType hheaders
    fun t ht d hd => ht.addType (h.types d hd)
  exact List.foldlRecOn (motive := FileTable.Tidy) r.sources addSource htypes
    fun t ht s hs => ht.addSource (h.sources s hs)

/-! ### Plans -/

/-- Everything that is written is tidy. -/
structure Plan.Tidy (p : Plan) : Prop where
  files : ∀ f ∈ p.files, f.Tidy
  types : ∀ d ∈ p.types, d.Tidy

/-- The plan of tidy headers and sources is tidy. -/
theorem tidy_ofParts {headers : List Header} {sources : List Source}
    (hheaders : ∀ h ∈ headers, h.Tidy) (hsources : ∀ s ∈ sources, s.Tidy) :
    (Plan.ofParts headers sources).Tidy := by
  have hreconciled := tidy_reconcileTypes hheaders hsources
  refine ⟨fun f hf => ?_, hreconciled.types⟩
  exact tidy_planFiles hreconciled f (List.mem_mergeSort.mp (List.mem_filter.mp hf).1)

/-- What is read of texts one after the other. -/
theorem forall_mem_readTexts {α : Type} {P : α → Prop} {read : Text → Text → α × List Record}
    {texts : List NamedText} (h : ∀ t ∈ texts, P (read t.2 t.1).1) :
    ∀ a ∈ (readTexts read texts).1, P a := by
  induction texts with
  | nil => exact List.forall_mem_nil _
  | cons t r ih =>
      obtain ⟨ht, hr⟩ := List.forall_mem_cons.mp h
      exact List.forall_mem_cons.mpr ⟨ht, ih hr⟩

/-- **Every plan that is made from texts is tidy**, whatever line breaks they have. -/
theorem tidy_ofTexts {headers sources : List NamedText}
    (hpaths : ∀ t ∈ headers ++ sources, oneLine.Covers t.1) :
    (Plan.ofTexts headers sources).1.Tidy := by
  obtain ⟨hheaders, hsources⟩ := List.forall_mem_append.mp hpaths
  refine tidy_ofParts ?_ ?_
  · exact forall_mem_readTexts fun t ht =>
      tidy_parseHeader t.2 (hheaders t (List.mem_mergeSort.mp ht))
  · exact forall_mem_readTexts fun t ht =>
      tidy_parseSource t.2 (hsources t (List.mem_mergeSort.mp ht))

end Sharpen
