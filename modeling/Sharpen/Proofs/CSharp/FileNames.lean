import Mathlib.Data.List.Basic
import Mathlib.Data.List.Nodup
import Sharpen.CSharp.File
import Sharpen.Proofs.Plan.Sections

/-!
# The Names of Generated Files

Generated files get their names from two places. The files of a plan are named after headers and
sources, and no two of them are called the same. The constants of an exported interface go to a file
named after the interface. Nothing keeps the second kind of names apart from the first, or from each
other, and of several files with one name only the last one is kept. This module says exactly when
nothing is lost.

A conversion gives its contents by name, so that a file whose name comes again is replaced in
silence. What is kept can be said by a recursion on the list of files, from which the exact
conditions follow: first for lists, then for the files of a plan, whose names are distinct but for
those of the constants.

## Main definitions

* `unreplaced`, `map_fst_filter_zipIdx` — the files that are kept, as a recursion on the list.
* `Plan.NamesApart`, `nodup_names_renderPlan_iff` — what has to hold of a plan for all names to
  differ.
* `Plan.withConstants` — the types of a plan whose constants go to files of their own.

## Main results

* `length_fileContents_eq_iff` — there are as many contents as files iff all names differ.
* `interfaceBase_eq_iff` — which interfaces share the name of their constants.
* `contents_renderPlan_iff` — the same for the contents of a conversion, for all headers, sources
  and settings.
* `not_forall_nodup_names_renderPlan` — a header that is called like the constants of an interface.
* `perm_fileContents` — the contents are those of the files that are not replaced.
* `unreplaced_eq_self_iff` — no file is replaced iff all names differ.
* `constantsClassName_eq_iff` — the constants of two types go to files of the same name iff the
  types have the same name, up to the mark of an interface that one of them has.
-/

namespace Sharpen

/-! ### Files that are kept -/

/-- The files that no later one of the same name replaces. -/
def unreplaced : List GeneratedFile → List GeneratedFile
  | [] => []
  | f :: r => if r.any (·.name == f.name) then unreplaced r else f :: unreplaced r

/-- Looking for a later file of the same name by index finds the files that are not replaced. -/
theorem map_fst_filter_zipIdx (done l : List GeneratedFile) :
    ((l.zipIdx done.length).filter fun p =>
        !((done ++ l).drop (p.2 + 1)).any (·.name == p.1.name)).map Prod.fst
      = unreplaced l := by
  induction l generalizing done with
  | nil => rfl
  | cons f r ih =>
      have hdone : done ++ f :: r = done ++ [f] ++ r := by rw [List.append_assoc]; rfl
      have hrest := ih (done ++ [f])
      rw [List.length_append, List.length_singleton, ← hdone] at hrest
      have hdrop : (done ++ f :: r).drop (done.length + 1) = r := by
        rw [hdone]
        exact List.drop_left' (by simp)
      rw [List.zipIdx_cons, List.filter_cons, unreplaced]
      dsimp only
      rw [hdrop]
      cases hlater : r.any (·.name == f.name) with
      | true => simpa using hrest
      | false => simpa using hrest

/-- **The contents are those of the files that are not replaced.** -/
theorem perm_fileContents (files : List GeneratedFile) :
    (fileContents files).Perm ((unreplaced files).map fun f => (f.fileName, f.content)) := by
  have hkept := map_fst_filter_zipIdx [] files
  rw [← hkept, List.map_map]
  exact List.mergeSort_perm _ _

/-- What is not replaced is among the files, in their order. -/
theorem unreplaced_sublist (files : List GeneratedFile) : (unreplaced files).Sublist files := by
  induction files with
  | nil => exact List.Sublist.refl _
  | cons f r ih =>
      rw [unreplaced]
      split
      · exact ih.cons _
      · exact ih.cons_cons _

/-- **No file is replaced** iff all names differ. A file that is replaced is missing among those
that are left, so there would have to be more of them than there are. -/
theorem unreplaced_eq_self_iff {files : List GeneratedFile} :
    unreplaced files = files ↔ (files.map GeneratedFile.name).Nodup := by
  induction files with
  | nil => simp [unreplaced]
  | cons f r ih =>
      have hlater : r.any (·.name == f.name) = true ↔ f.name ∈ r.map GeneratedFile.name := by
        simp [List.any_eq_true]
      rw [List.map_cons, List.nodup_cons, ← hlater, unreplaced]
      split
      · rename_i hany
        refine ⟨fun heq => ?_, fun h => absurd hany h.1⟩
        have hlength := (unreplaced_sublist r).length_le
        rw [heq, List.length_cons] at hlength
        omega
      · rename_i hnone
        rw [List.cons.injEq, ih]
        exact ⟨fun h => ⟨hnone, h.2⟩, fun h => ⟨rfl, h.2⟩⟩

/-- **There are as many contents as files** iff all names differ. -/
theorem length_fileContents_eq_iff {files : List GeneratedFile} :
    (fileContents files).length = files.length ↔ (files.map GeneratedFile.name).Nodup := by
  rw [(perm_fileContents files).length_eq, List.length_map, ← unreplaced_eq_self_iff]
  exact ⟨(unreplaced_sublist files).eq_of_length, congrArg List.length⟩

/-! ### Classes of constants -/

/-- Two names are equal without the mark of an interface iff they are equal, or one is the other
with the mark in front. -/
theorem interfaceBase_eq_iff {a b : Text} :
    interfaceBase a = interfaceBase b ↔
      a = b ∨ (isInterfaceName a = true ∧ isInterfaceName b = false ∧ a = 'I' :: b) ∨
        (isInterfaceName b = true ∧ isInterfaceName a = false ∧ b = 'I' :: a) := by
  have hmarked : ∀ {n : Text}, isInterfaceName n = true → n = 'I' :: n.drop 1 := by
    intro n hn
    rw [isInterfaceName.eq_def] at hn
    split at hn
    · rfl
    · cases hn
  rw [interfaceBase, interfaceBase]
  cases ha : isInterfaceName a with
  | true =>
      have hdrop := hmarked ha
      cases hb : isInterfaceName b with
      | true =>
          have hdrop' := hmarked hb
          simp only [if_true, Bool.true_eq_false, false_and, and_false, or_false]
          refine ⟨fun heq => ?_, congrArg _⟩
          rw [hdrop, hdrop', heq]
      | false =>
          have hne : a ≠ b := fun heq => by rw [heq, hb] at ha; cases ha
          simp only [if_true, Bool.false_eq_true, if_false, hne, false_and, or_false, false_or,
            true_and]
          refine ⟨fun heq => ?_, fun heq => ?_⟩
          · rw [hdrop, heq]
          · rw [heq, List.drop_one, List.tail_cons]
  | false =>
      cases hb : isInterfaceName b with
      | true =>
          have hdrop := hmarked hb
          have hne : a ≠ b := fun heq => by rw [heq, hb] at ha; cases ha
          simp only [if_true, Bool.false_eq_true, if_false, hne, false_and, false_or, true_and]
          refine ⟨fun heq => ?_, fun heq => ?_⟩
          · rw [hdrop, heq]
          · rw [heq, List.drop_one, List.tail_cons]
      | false => simp

/-- **The constants of two types go to files of the same name** iff the types have the same name, up
to the mark of an interface that one of them has. -/
theorem constantsClassName_eq_iff {d e : TypeDecl} :
    constantsClassName d = constantsClassName e ↔ interfaceBase d.name = interfaceBase e.name :=
  List.append_left_inj _

/-! ### The files of a plan -/

namespace Plan

/-- The types of a plan whose constants go to files of their own. -/
def withConstants (p : Plan) : List TypeDecl :=
  p.types.filter hasConstantsClass

/-- **The names of all generated files differ**: no file of the plan is called like the constants of
an interface, and no two interfaces with constants have names that differ in the mark alone. -/
structure NamesApart (p : Plan) : Prop where
  files : ∀ f ∈ p.files, ∀ d ∈ p.withConstants, f.name ≠ constantsClassName d
  types : ∀ d ∈ p.withConstants, ∀ e ∈ p.withConstants, isInterfaceName d.name = true →
    isInterfaceName e.name = false → d.name ≠ 'I' :: e.name

end Plan

/-- The generated files are named after the files of the plan and the interfaces with constants. -/
theorem perm_names_renderPlan (s : Settings) (p : Plan) :
    ((renderPlan s p).map GeneratedFile.name).Perm
      (p.files.map OutputFile.name ++ p.withConstants.map constantsClassName) := by
  refine ((List.mergeSort_perm _ _).map _).trans (List.Perm.of_eq ?_)
  rw [List.map_append, List.map_map, List.map_map]
  rfl

/-- The types with constants have different class names iff no two names differ in the mark
alone. -/
theorem nodup_constantsClassName_iff {types : List TypeDecl}
    (hnames : (types.map TypeDecl.name).Nodup) :
    (types.map constantsClassName).Nodup ↔
      ∀ d ∈ types, ∀ e ∈ types, isInterfaceName d.name = true →
        isInterfaceName e.name = false → d.name ≠ 'I' :: e.name := by
  constructor
  · intro hnodup d hd e he hmarked hplain heq
    have hsame : constantsClassName d = constantsClassName e :=
      constantsClassName_eq_iff.mpr
        (interfaceBase_eq_iff.mpr (Or.inr (Or.inl ⟨hmarked, hplain, heq⟩)))
    obtain rfl := List.inj_on_of_nodup_map hnodup hd he hsame
    rw [hmarked] at hplain
    cases hplain
  · intro hapart
    refine List.Nodup.map_on (fun d hd e he hsame => ?_) hnames.of_map
    rcases interfaceBase_eq_iff.mp (constantsClassName_eq_iff.mp hsame) with
      heq | ⟨hmarked, hplain, heq⟩ | ⟨hmarked, hplain, heq⟩
    · exact List.inj_on_of_nodup_map hnames hd he heq
    · exact absurd heq (hapart d hd e he hmarked hplain)
    · exact absurd heq (hapart e he d hd hmarked hplain)

section

variable (headers : List Header) (sources : List Source) (s : Settings)

/-- **When all names differ**: the names of the plan's own files always do, so it is up to the files
with constants. -/
theorem nodup_names_renderPlan_iff :
    ((renderPlan s (Plan.ofParts headers sources)).map GeneratedFile.name).Nodup ↔
      (Plan.ofParts headers sources).NamesApart := by
  have hnames : ((Plan.ofParts headers sources).withConstants.map TypeDecl.name).Nodup :=
    List.Nodup.sublist (List.filter_sublist.map _) nodup_names_ofParts
  rw [(perm_names_renderPlan s _).nodup_iff, List.nodup_append, nodup_constantsClassName_iff hnames]
  constructor
  · rintro ⟨-, htypes, hfiles⟩
    refine ⟨fun f hf d hd => ?_, htypes⟩
    exact hfiles _ (List.mem_map_of_mem hf) _ (List.mem_map_of_mem hd)
  · intro hapart
    refine ⟨(laid_ofParts headers sources).nodup, hapart.types, fun n hn m hm => ?_⟩
    obtain ⟨f, hf, rfl⟩ := List.mem_map.mp hn
    obtain ⟨d, hd, rfl⟩ := List.mem_map.mp hm
    exact hapart.files f hf d hd

/-- As many files are generated as the plan has files and interfaces with constants. -/
theorem length_renderPlan (p : Plan) :
    (renderPlan s p).length = p.files.length + p.withConstants.length := by
  have hlength := (perm_names_renderPlan s p).length_eq
  simpa using hlength

/-- **No generated file replaces another** exactly when the names of the plan are apart, for all
headers, sources and settings: then the names of the generated files differ, the contents have one
entry for each file of the plan and one for each interface with constants, and these are the
generated files. -/
theorem contents_renderPlan_iff :
    (((renderPlan s (Plan.ofParts headers sources)).map GeneratedFile.name).Nodup ↔
      (Plan.ofParts headers sources).NamesApart) ∧
    ((fileContents (renderPlan s (Plan.ofParts headers sources))).length
        = (Plan.ofParts headers sources).files.length
          + (Plan.ofParts headers sources).withConstants.length ↔
      (Plan.ofParts headers sources).NamesApart) ∧
    ((Plan.ofParts headers sources).NamesApart →
      (fileContents (renderPlan s (Plan.ofParts headers sources))).Perm
        ((renderPlan s (Plan.ofParts headers sources)).map fun f => (f.fileName, f.content))) := by
  have hnodup := nodup_names_renderPlan_iff headers sources s
  refine ⟨hnodup, ?_, fun hapart => ?_⟩
  · rw [← length_renderPlan s, length_fileContents_eq_iff, hnodup]
  · have hperm := perm_fileContents (renderPlan s (Plan.ofParts headers sources))
    rwa [unreplaced_eq_self_iff.mpr (hnodup.mpr hapart)] at hperm

end

/-! ### A header called like the constants of an interface -/

/-- A header that declares an exported interface with a constant. -/
def storeHeader : Header where
  stem := "IStore"
  types := [{
    name := "IStore"
    kind := .interfaceType
    isExported := true
    file := "IStore"
    methods := [{ name := "Count", returnType := "int", visibility := .pub, isVirtual := true,
                  isPure := true, owner := "IStore", originFile := "IStore", order := 1,
                  position := 62 }]
    headerConstants := [{ name := "LIMIT", value := "10", type := "int", literal := "10",
                          originFile := "IStore", position := 37 }] }]

/-- The text of this header. -/
def storeText : Text :=
  "class __declspec(dllexport) IStore\n\x7b\n    #define LIMIT 10\n" ++
  "    virtual int Count() = 0;\n\x7d;\n"

/-- A header that declares an empty class of its own name. -/
def classHeader (name : Text) : Header where
  stem := name
  types := [{ name := name, file := name }]

/-- **A file can replace another**: not for all headers and sources that are read from texts do the
names of the generated files differ. In the one for which they do not, a class has a file named
after its header, which is the name of the interface's constants. -/
theorem not_forall_nodup_names_renderPlan :
    ¬ ∀ (headers : List Header) (sources : List Source) (s : Settings),
      (∀ h ∈ headers, ∃ text path, h = (parseHeader text path).1) →
      (∀ s ∈ sources, ∃ text path, s = (parseSource text path).1) →
      ((renderPlan s (Plan.ofParts headers sources)).map GeneratedFile.name).Nodup := by
  intro hall
  have hread : ∀ h ∈ [storeHeader, classHeader "StoreDefines"],
      ∃ text path, h = (parseHeader text path).1 := by
    intro h hh
    simp only [List.mem_cons, List.not_mem_nil, or_false] at hh
    rcases hh with rfl | rfl
    · exact ⟨storeText, "IStore.h", by decide +kernel⟩
    · exact ⟨"class StoreDefines\n\x7b\n\x7d;\n", "StoreDefines.h", by decide +kernel⟩
  have hsort : [storeHeader, classHeader "StoreDefines"].mergeSort
      (fun a b => Text.precedes a.stem b.stem) = [storeHeader, classHeader "StoreDefines"] := by
    refine List.mergeSort_of_pairwise ?_
    decide +kernel
  have htypes : (Plan.ofParts [storeHeader, classHeader "StoreDefines"] []).types
      = storeHeader.types ++ (classHeader "StoreDefines").types := by
    rw [Plan.ofParts, reconcileTypes]
    dsimp only
    rw [hsort]
    decide +kernel
  have hapart := (nodup_names_renderPlan_iff _ [] {}).mp (hall _ [] {} hread (by simp))
  obtain ⟨f, hf, hname, -⟩ := exists_file_mainPart
    (htypes ▸ List.mem_append_right _ List.mem_cons_self)
  have hstore : storeHeader.types.head (by decide)
      ∈ (Plan.ofParts [storeHeader, classHeader "StoreDefines"] []).withConstants := by
    rw [Plan.withConstants, htypes]
    decide +kernel
  exact hapart.files f hf _ hstore (hname.trans (by decide +kernel))

end Sharpen
