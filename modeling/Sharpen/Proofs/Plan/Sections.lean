import Sharpen.Proofs.Plan.Accounting
import Sharpen.Proofs.Plan.Parts

/-!
# The Sections of a Plan

Laying out types only ever adds sections to files, wherever fragments have to move to. So the
sections in the files of a plan are the parts of its types, each once, and since no two of these
types have the same name, the sections of a type are its parts.

The invariant is stated up to order, since a fragment may go to a file that comes earlier than the
one that was written last. At the end the sections are sorted out by the name of their type. Types
with one name do not both have sections, for a name stands for one type only, so what is found under
a name are the parts of one type, with one main part among them.

## Main definitions

* `Laid` — the invariant of laying out; `Laid.update` keeps it over a change of a file and
  `laid_planFiles` gives it for all files.
* `Partitioned`, `partitioned_ofParts` — the sections of each type of a plan partition its methods.
* `Plan.sectionsOf` — the sections of a type over all files of a plan.

## Main results

* `nodup_names_ofParts` — no name of a type is in a plan twice.
* `perm_sectionsOf` — the sections of a type in a plan are its parts.
* `FileTable.update_files` — what changing a file does: the file with the name is changed where it
  is, or one is made behind all others.
* `Laid.addType` — laying out a type adds its parts.
* `laid_ofParts` — the files of a plan hold the parts of its types.
-/

namespace Sharpen

/-! ### Files and their sections -/

/-- The sections that lie in files, all in all: the names of the files differ, and every main
section is in the file that its type is declared in. -/
structure Laid (sections : List Section) (files : List OutputFile) : Prop where
  perm : (files.flatMap OutputFile.sections).Perm sections
  nodup : (files.map OutputFile.name).Nodup
  main : ∀ f ∈ files, ∀ s ∈ f.sections, s.isMain = true → f.name = s.type.file

/-- There are no sections without files. -/
theorem laid_nil : Laid [] [] :=
  ⟨List.Perm.refl _, List.nodup_nil, by simp⟩

/-- **What changing a file does**: the file with the name is changed where it is, or one is made
behind all others. -/
theorem FileTable.update_files (t : FileTable) (name : Text) (f : OutputFile → OutputFile) :
    (∃ l g r, t.files = l ++ g :: r ∧ g.name = name ∧ (t.update name f).files = l ++ f g :: r) ∨
      (∀ g ∈ t.files, g.name ≠ name) ∧
        (t.update name f).files = t.files ++ [f { name := name }] := by
  rw [update]
  cases hfind : t.files.findIdx? (·.name == name) with
  | some i =>
      obtain ⟨hlt, hname, -⟩ := List.findIdx?_eq_some_iff_getElem.mp hfind
      refine Or.inl ⟨t.files.take i, t.files[i], t.files.drop (i + 1), ?_, by simpa using hname, ?_⟩
      · rw [← List.drop_eq_getElem_cons hlt, List.take_append_drop]
      · exact List.modify_eq_take_cons_drop hlt
  | none =>
      refine Or.inr ⟨fun g hg => ?_, rfl⟩
      simpa using List.findIdx?_eq_none_iff.mp hfind g hg

namespace Laid

variable {sections more : List Section} {t : FileTable} {name : Text}
  {f : OutputFile → OutputFile}

/-- **A change that adds sections to a file keeps the invariant.** The new sections move behind
those of the files that follow. -/
theorem update (hl : Laid sections t.files) (hname : ∀ g, (f g).name = g.name)
    (hsections : ∀ g, (f g).sections = g.sections ++ more)
    (hmore : ∀ s ∈ more, s.isMain = true → name = s.type.file) :
    Laid (sections ++ more) (t.update name f).files := by
  obtain ⟨hperm, hnodup, hmain⟩ := hl
  rcases t.update_files name f with ⟨l, g, r, hfiles, rfl, hafter⟩ | ⟨hnew, hafter⟩
  · rw [hfiles] at hperm hnodup hmain
    refine ⟨?_, ?_, ?_⟩
    · rw [hafter, List.flatMap_append, List.flatMap_cons, hsections]
      rw [List.flatMap_append, List.flatMap_cons] at hperm
      refine List.Perm.trans ?_ (hperm.append_right more)
      simp only [List.append_assoc]
      exact (List.perm_append_comm.append_left _).append_left _
    · rw [hafter, List.map_append, List.map_cons, hname, ← List.map_cons, ← List.map_append]
      exact hnodup
    · rw [hafter]
      intro k hk s hs hsmain
      rcases List.mem_append.mp hk with hk | hk
      · exact hmain k (List.mem_append_left _ hk) s hs hsmain
      · rcases List.mem_cons.mp hk with rfl | hk
        · rw [hsections] at hs
          rw [hname]
          rcases List.mem_append.mp hs with hs | hs
          · exact hmain g (List.mem_append_right _ List.mem_cons_self) s hs hsmain
          · exact hmore s hs hsmain
        · exact hmain k (List.mem_append_right _ (List.mem_cons_of_mem _ hk)) s hs hsmain
  · refine ⟨?_, ?_, ?_⟩
    · rw [hafter, List.flatMap_append, List.flatMap_singleton, hsections, List.nil_append]
      exact hperm.append_right more
    · rw [hafter, List.map_append, List.map_singleton, hname]
      refine List.nodup_append.mpr ⟨hnodup, List.nodup_singleton _, ?_⟩
      rintro n hn m hm rfl
      obtain ⟨g, hg, rfl⟩ := List.mem_map.mp hn
      exact hnew g hg (List.mem_singleton.mp hm)
    · rw [hafter]
      intro k hk s hs hsmain
      rcases List.mem_append.mp hk with hk | hk
      · exact hmain k hk s hs hsmain
      · obtain rfl := List.mem_singleton.mp hk
        rw [hsections, List.nil_append] at hs
        rw [hname]
        exact hmore s hs hsmain

/-- A change that leaves the sections of a file alone keeps the invariant. -/
theorem update_of_eq (hl : Laid sections t.files) (hname : ∀ g, (f g).name = g.name)
    (hsections : ∀ g, (f g).sections = g.sections) : Laid sections (t.update name f).files := by
  have hsame : Laid (sections ++ []) (t.update name f).files :=
    hl.update hname (by simp [hsections]) (by simp)
  rwa [List.append_nil] at hsame

/-- A run of steps keeps the invariant if every step does. -/
theorem foldl {α : Type} {step : FileTable → α → FileTable} {added : α → List Section}
    (hstep : ∀ sections t a, Laid sections t.files →
      Laid (sections ++ added a) (step t a).files) (l : List α) (hl : Laid sections t.files) :
    Laid (sections ++ l.flatMap added) (l.foldl step t).files := by
  induction l generalizing sections t with
  | nil => simpa using hl
  | cons a r ih =>
      have hrest := ih (hstep sections t a hl)
      rwa [List.append_assoc, ← List.flatMap_cons] at hrest

/-- A run of steps that add no section keeps the invariant. -/
theorem foldl_of_eq {α : Type} {step : FileTable → α → FileTable}
    (hstep : ∀ t a, Laid sections t.files → Laid sections (step t a).files) (l : List α)
    (hl : Laid sections t.files) : Laid sections (l.foldl step t).files := by
  induction l generalizing t with
  | nil => exact hl
  | cons a r ih => exact ih (hstep t a hl)

/-! ### Laying out -/

/-- Making the file of a header adds no section. -/
theorem addHeader (hl : Laid sections t.files) (h : Header) :
    Laid sections (addHeader t h).files := by
  rw [Sharpen.addHeader]
  split
  · exact hl
  · exact hl.update_of_eq (fun _ => rfl) fun _ => rfl

/-- A fragment is added to one file, whichever it is. -/
theorem addFragment (hl : Laid sections t.files) (d : TypeDecl) (target : Text) :
    Laid (sections ++ [d.fragment target]) (addFragment d t target).files := by
  rw [Sharpen.addFragment]
  generalize ((t.find? target).all fun f => f.headerStem.isEmpty || f.headerStem == d.file) = free
  refine Laid.update ?_ (fun _ => rfl) (fun _ => rfl) fun s hs hmain => ?_
  · -- A report about the move leaves the files alone.
    split
    · exact hl
    · exact hl
  · obtain rfl := List.mem_singleton.mp hs
    cases hmain

/-- **Laying out a type adds its parts.** -/
theorem addType (hl : Laid sections t.files) (d : TypeDecl) :
    Laid (sections ++ d.parts) (addType t d).files := by
  have hmain : Laid (sections ++ [d.mainPart]) (t.addSection d.file d.mainPart).files := by
    refine hl.update (fun _ => rfl) (fun _ => rfl) fun s hs _ => ?_
    obtain rfl := List.mem_singleton.mp hs
    rfl
  rw [Sharpen.addType, TypeDecl.parts]
  by_cases hsplit : isSplit d = true
  · have hall := Laid.foldl (fun _ _ f hl => hl.addFragment d f) d.foreignFiles hmain
    rw [List.append_assoc, ← List.map_eq_flatMap] at hall
    simp only [TypeDecl.mainPart, hsplit, if_true] at hall ⊢
    exact hall
  · simp only [TypeDecl.mainPart, hsplit, Bool.false_eq_true, if_false] at hmain ⊢
    exact hmain

/-- What a source brings to the files is no section. -/
theorem addSource (hl : Laid sections t.files) (s : Source) :
    Laid sections (addSource t s).files := by
  have hembedded : Laid sections (if s.structs.isEmpty then t
      else t.update s.stem fun f => { f with embedded := f.embedded ++ s.structs }).files := by
    split
    · exact hl
    · exact hl.update_of_eq (fun _ => rfl) fun _ => rfl
  have hbanner : ∀ u : FileTable, Laid sections u.files →
      Laid sections (if (u.find? s.stem).isSome then
        u.update s.stem fun f => { f with banner := nonemptyOr f.banner s.banner }
        else u).files := by
    intro u hu
    split
    · exact hu.update_of_eq (fun _ => rfl) fun _ => rfl
    · exact hu
  exact hbanner _ hembedded

end Laid

/-- **All sections that are laid out** are the parts of the types. -/
theorem laid_planFiles (r : Reconciled) :
    Laid (r.types.flatMap TypeDecl.parts) (planFiles r).files := by
  have hheaders : Laid [] (r.headers.foldl addHeader {}).files :=
    Laid.foldl_of_eq (fun _ h hl => hl.addHeader h) r.headers laid_nil
  have htypes := Laid.foldl (fun _ _ d hl => hl.addType d) r.types hheaders
  rw [List.nil_append] at htypes
  exact Laid.foldl_of_eq (fun _ s hl => hl.addSource s) r.sources htypes

/-- What holds nothing can be left out. -/
theorem flatMap_filter_of_eq_nil {α β : Type} {content : α → List β} {keep : α → Bool}
    (hkeep : ∀ a, keep a = false → content a = []) (l : List α) :
    (l.filter keep).flatMap content = l.flatMap content := by
  induction l with
  | nil => rfl
  | cons a r ih =>
      cases ha : keep a with
      | true => rw [List.filter_cons_of_pos ha, List.flatMap_cons, List.flatMap_cons, ih]
      | false =>
          rw [List.filter_cons_of_neg (by simp [ha]), List.flatMap_cons, hkeep a ha,
            List.nil_append, ih]

/-- Files without sections do not matter, nor does the order of the files. -/
theorem Laid.of_files {sections : List Section} {files : List OutputFile}
    {le : OutputFile → OutputFile → Bool} {keep : OutputFile → Bool} (hl : Laid sections files)
    (hkeep : ∀ f, keep f = false → f.sections = []) :
    Laid sections ((files.mergeSort le).filter keep) := by
  have hsort := List.mergeSort_perm files le
  refine ⟨?_, ?_, ?_⟩
  · rw [flatMap_filter_of_eq_nil hkeep]
    exact (hsort.flatMap_right _).trans hl.perm
  · refine List.Nodup.sublist (List.filter_sublist.map _) ?_
    exact (hsort.map _).nodup_iff.mpr hl.nodup
  · exact fun f hf => hl.main f (List.mem_mergeSort.mp (List.mem_filter.mp hf).1)

section

variable {headers : List Header} {sources : List Source}

variable (headers sources) in
/-- **The files of a plan** hold the parts of its types. -/
theorem laid_ofParts :
    Laid ((Plan.ofParts headers sources).types.flatMap TypeDecl.parts)
      (Plan.ofParts headers sources).files := by
  refine (laid_planFiles (reconcileTypes headers sources)).of_files fun f hf => ?_
  simp only [Bool.not_eq_false', Bool.and_eq_true, List.isEmpty_iff] at hf
  exact hf.1

/-! ### The types of a plan -/

/-- What entries lead to is listed in their order, under their names. -/
theorem sublist_names {entries : List (Text × Nat)} {find : Nat → Option TypeDecl}
    (hfind : ∀ e ∈ entries, ∀ t, find e.2 = some t → t.name = e.1) (keep : Nat → Bool) :
    ((((entries.map Prod.snd).filter keep).filterMap find).map TypeDecl.name).Sublist
      (entries.map Prod.fst) := by
  induction entries with
  | nil => exact List.Sublist.refl _
  | cons e r ih =>
      have hr := ih fun e he => hfind e (List.mem_cons_of_mem _ he)
      rw [List.map_cons, List.map_cons, List.filter_cons]
      split
      · cases ht : find e.2 with
        | none =>
            rw [List.filterMap_cons_none ht]
            exact hr.cons _
        | some t =>
            rw [List.filterMap_cons_some ht, List.map_cons, hfind e List.mem_cons_self t ht]
            exact hr.cons_cons _
      · exact hr.cons _

/-- **No two types of a plan have the same name.** -/
theorem nodup_names_ofParts : ((Plan.ofParts headers sources).types.map TypeDecl.name).Nodup := by
  rw [Plan.ofParts, reconcileTypes_eq]
  refine (sublist_names (fun e he t ht => ?_) _).nodup
    (Registry.nodup_names_ofTypes (typesBefore headers sources))
  exact name_of_typesAfter ((Registry.mem_entries_ofTypes _ _).mp he) ht

/-! ### The sections of a type -/

/-- The sections of a type over all files of a plan. -/
def Plan.sectionsOf (p : Plan) (d : TypeDecl) : List Section :=
  p.files.flatMap fun f => f.sections.filter (·.type == d)

/-- Among the parts of different types, those of one type are its parts. -/
theorem filter_type_flatMap_parts {types : List TypeDecl} (hnodup : types.Nodup) {d : TypeDecl}
    (hd : d ∈ types) : (types.flatMap TypeDecl.parts).filter (·.type == d) = d.parts := by
  obtain ⟨l, r, rfl⟩ := List.append_of_mem hd
  obtain ⟨-, hright, hdisjoint⟩ := List.nodup_append.mp hnodup
  have hothers : ∀ k : List TypeDecl, d ∉ k →
      (k.flatMap TypeDecl.parts).filter (·.type == d) = [] := by
    intro k hk
    refine List.filter_eq_nil_iff.mpr fun s hs => ?_
    obtain ⟨e, he, hs⟩ := List.mem_flatMap.mp hs
    rw [TypeDecl.type_of_mem_parts hs, beq_iff_eq]
    exact fun h => hk (h ▸ he)
  have hown : d.parts.filter (·.type == d) = d.parts :=
    List.filter_eq_self.mpr fun s hs => beq_iff_eq.mpr (TypeDecl.type_of_mem_parts hs)
  have hl : d ∉ l := fun h => hdisjoint d h d List.mem_cons_self rfl
  rw [List.flatMap_append, List.flatMap_cons, List.filter_append, List.filter_append, hothers l hl,
    hothers r (List.nodup_cons.mp hright).1, hown, List.nil_append, List.append_nil]

/-- **The sections of a type are its parts.** -/
theorem perm_sectionsOf {d : TypeDecl} (hd : d ∈ (Plan.ofParts headers sources).types) :
    ((Plan.ofParts headers sources).sectionsOf d).Perm d.parts := by
  have hperm := (laid_ofParts headers sources).perm.filter (·.type == d)
  rw [filter_type_flatMap_parts nodup_names_ofParts.of_map hd, List.filter_flatMap] at hperm
  exact hperm

/-- Every type of a plan has its main section in the file that is named after its header. -/
theorem exists_file_mainPart {d : TypeDecl} (hd : d ∈ (Plan.ofParts headers sources).types) :
    ∃ f ∈ (Plan.ofParts headers sources).files, f.name = d.file ∧ d.mainPart ∈ f.sections := by
  have hmem : d.mainPart ∈ (Plan.ofParts headers sources).sectionsOf d :=
    (perm_sectionsOf hd).mem_iff.mpr (TypeDecl.mem_parts.mpr (Or.inl rfl))
  obtain ⟨f, hf, hs⟩ := List.mem_flatMap.mp hmem
  have hs := (List.mem_filter.mp hs).1
  exact ⟨f, hf, (laid_ofParts headers sources).main f hf _ hs rfl, hs⟩

/-- **The sections of a type partition its methods.** They hold every method once and in its order,
one of them is the main section and lies in the file the type is declared in, and there are several,
all marked as such, exactly when the type is no interface and its bodies come from two files. -/
structure Partitioned (p : Plan) (d : TypeDecl) : Prop where
  methods : ((p.sectionsOf d).flatMap Section.methods).Perm d.methods
  ordered : ∀ s ∈ p.sectionsOf d, s.methods.Sublist d.methods
  main : ∃ s f, (p.sectionsOf d).filter Section.isMain = [s] ∧ p.file? d.file = some f ∧
    s ∈ f.sections
  several : 1 < (p.sectionsOf d).length ↔ d.isInterface = false ∧ d.IsSpread
  marked : 1 < (p.sectionsOf d).length → ∀ s ∈ p.sectionsOf d, s.isPartial = true
  whole : ¬ 1 < (p.sectionsOf d).length → ∃ s, p.sectionsOf d = [s] ∧ s.isPartial = false

/-- A file of a plan is found by its name. -/
theorem file?_ofParts {f : OutputFile} (hf : f ∈ (Plan.ofParts headers sources).files) :
    (Plan.ofParts headers sources).file? f.name = some f := by
  cases hfind : (Plan.ofParts headers sources).file? f.name with
  | none => simpa using List.find?_eq_none.mp hfind f hf
  | some g =>
      have hname : g.name = f.name := by simpa using List.find?_some hfind
      have hg : g ∈ (Plan.ofParts headers sources).files := List.mem_of_find?_eq_some hfind
      rw [List.inj_on_of_nodup_map (laid_ofParts headers sources).nodup hg hf hname]

/-- **Every type of a plan is partitioned over the files**, for all headers and sources. -/
theorem partitioned_ofParts {d : TypeDecl} (hd : d ∈ (Plan.ofParts headers sources).types) :
    Partitioned (Plan.ofParts headers sources) d := by
  have hperm := perm_sectionsOf hd
  have hlength : 1 < ((Plan.ofParts headers sources).sectionsOf d).length ↔ isSplit d = true := by
    rw [hperm.length_eq, TypeDecl.one_lt_length_parts_iff]
  have hmarked : ∀ s ∈ (Plan.ofParts headers sources).sectionsOf d, s.isPartial = isSplit d :=
    fun s hs => TypeDecl.isPartial_of_mem_parts (hperm.mem_iff.mp hs)
  refine ⟨?_, ?_, ?_, hlength.trans TypeDecl.isSplit_iff, ?_, ?_⟩
  · exact (hperm.flatMap_right _).trans d.flatMap_methods_parts
  · exact fun s hs => TypeDecl.sublist_of_mem_parts (hperm.mem_iff.mp hs)
  · have hmain : ((Plan.ofParts headers sources).sectionsOf d).filter Section.isMain
        = [d.mainPart] := by
      have h := hperm.filter Section.isMain
      rw [d.filter_isMain_parts] at h
      exact List.perm_singleton.mp h
    have hmem : d.mainPart ∈ (Plan.ofParts headers sources).sectionsOf d :=
      hperm.mem_iff.mpr (TypeDecl.mem_parts.mpr (Or.inl rfl))
    obtain ⟨f, hf, hs⟩ := List.mem_flatMap.mp hmem
    have hs := (List.mem_filter.mp hs).1
    have hname : f.name = d.file := (laid_ofParts headers sources).main f hf _ hs rfl
    exact ⟨d.mainPart, f, hmain, hname ▸ file?_ofParts hf, hs⟩
  · exact fun hlt s hs => (hmarked s hs).trans (hlength.mp hlt)
  · intro hle
    have hsplit : isSplit d = false := by simpa using mt hlength.mpr hle
    have hparts : d.parts = [d.mainPart] := by simp [TypeDecl.parts, hsplit]
    exact ⟨d.mainPart, List.perm_singleton.mp (hparts ▸ hperm), hsplit⟩

end

/-- A header with a class that declares two methods. -/
def spreadHeader : Header where
  stem := "Shape"
  types := [{ name := "Shape", file := "Shape",
              methods := [{ name := "area" }, { name := "scale" }] }]

/-- A source that implements one method of this class. -/
def spreadSource (stem name : Text) : Source where
  stem := stem
  methods := [{ name := name, owner := "Shape", targetFile := stem, body := some [] }]

/-- A source for each of the two methods. -/
def spreadSources : List Source :=
  [spreadSource "Scaling" "scale", spreadSource "Shape" "area"]

/-- The class with bodies from two sources. -/
def spreadShape : TypeDecl where
  name := "Shape"
  file := "Shape"
  methods := [{ name := "area", targetFile := "Shape", body := some [] },
    { name := "scale", targetFile := "Scaling", body := some [] }]

/-- A class whose two methods are implemented in two sources has a section in each of two files. -/
theorem partitioned_spreadShape :
    spreadShape ∈ (Plan.ofParts [spreadHeader] spreadSources).types ∧
      1 < ((Plan.ofParts [spreadHeader] spreadSources).sectionsOf spreadShape).length ∧
      Partitioned (Plan.ofParts [spreadHeader] spreadSources) spreadShape := by
  have hsort : spreadSources.mergeSort (fun a b => Text.precedes a.stem b.stem) =
      spreadSources := by
    refine List.mergeSort_of_pairwise ?_
    decide
  have hmem : spreadShape ∈ (Plan.ofParts [spreadHeader] spreadSources).types := by
    rw [Plan.ofParts, reconcileTypes]
    dsimp only
    rw [hsort]
    decide +kernel
  have hpart := partitioned_ofParts hmem
  have hspread : spreadShape.IsSpread :=
    ⟨_, List.mem_cons_self, _, List.mem_cons_of_mem _ List.mem_cons_self, by decide, by decide,
      by decide⟩
  exact ⟨hmem, hpart.several.mpr ⟨rfl, hspread⟩, hpart⟩

end Sharpen
