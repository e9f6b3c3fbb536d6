import Mathlib.Data.List.Nodup
import Mathlib.Data.List.Perm.Basic
import Sharpen.Proofs.Header.Order
import Sharpen.Proofs.Plan.Declared
import Sharpen.Proofs.Source.Bodies
import Sharpen.Proofs.Source.Order
import Sharpen.Proofs.Text.Order

/-!
# The Order of Methods

The methods of a type come in the order of its header, and behind them those that only sources have,
source by source and each source from top to bottom. Four things have to fit together for that: the
order in which a header is read, the numbers that methods are given when their source is read, the
order of the sources' names, and the sorting at the end of the run.

The numbers of a source follow the positions of its text, and sources are ranked by their names.
Sorting by rank and number puts the added methods into this order, and leaves the declared ones,
which stand in front and are not sorted. Names must be different for the rank to be a place; two
sources of one name would share a rank.

## Main definitions

* `Method.StandsBefore`, `standsBefore_of_sourceOrder` — the order of the texts, and that sorting by
  source and number leads to it.
* `Source.Holds` — whether a method is one that the source has, or that with another owner or
  another mark.

## Main results

* `sourceRank_of_nodup` — sources with different names are ranked by their places.
* `pairwise_drop_typesAfter` — behind the declared methods of a type the others are sorted by source
  and number.
* `ordered_ofParts` — the methods of every type of a plan are in this order, for headers and sources
  that are read from texts, where no two sources have the same name.
-/

namespace Sharpen

/-! ### The order of sources -/

/-- The sources are taken in the order of their names. -/
theorem pairwise_sourceOrderByStem (sources : List Source) :
    (sourceOrderByStem sources).Pairwise fun s r => Text.precedes s.stem r.stem = true := by
  refine List.pairwise_mergeSort (fun a b c hab hbc => ?_) (fun a b => ?_) sources
  · exact Text.precedes_trans hab hbc
  · exact Text.precedes_total a.stem b.stem

/-- Without repeated names the rank of a source is its place. Looking from the end, the first place
with its name is the only one. -/
theorem sourceRank_of_nodup {sources : List Source} (hnodup : (sources.map Source.stem).Nodup)
    {k : Nat} {s : Source} (hk : sources[k]? = some s) : sourceRank sources s.stem = k := by
  obtain ⟨hlt, -⟩ := List.getElem?_eq_some_iff.mp hk
  have hstem : (sources.map Source.stem)[k]? = some s.stem := by
    rw [List.getElem?_map, hk, Option.map_some]
  have hlength : (sources.map Source.stem).length = sources.length := List.length_map _
  have hback : ∀ j (hj : j < (sources.map Source.stem).reverse.length),
      (sources.map Source.stem).reverse[j] = s.stem ↔ sources.length - 1 - j = k := by
    intro j hj
    rw [List.length_reverse] at hj
    rw [← Option.some_inj, ← List.getElem?_eq_getElem, List.getElem?_reverse hj, hlength, ← hstem]
    refine List.getElem?_inj ?_ hnodup
    omega
  have hfind : (sources.map Source.stem).reverse.findIdx? (· == s.stem)
      = some (sources.length - 1 - k) := by
    refine List.findIdx?_eq_some_iff_getElem.mpr ⟨?_, ?_, fun j hj => ?_⟩
    · rw [List.length_reverse, hlength]
      omega
    · rw [beq_iff_eq, hback]
      omega
    · rw [beq_iff_eq, hback]
      omega
  rw [sourceRank]
  simp only [hfind, hlength]
  omega

/-! ### Sorting -/

/-- Sorting methods by source and number sorts them. -/
theorem pairwise_mergeSort_sourceOrder (rank : Text → Nat) (methods : List Method) :
    (methods.mergeSort (sourceOrder rank)).Pairwise fun a b => sourceOrder rank a b = true := by
  refine List.pairwise_mergeSort (fun a b c hab hbc => ?_) (fun a b => ?_) methods
  · simp only [sourceOrder, Bool.or_eq_true, decide_eq_true_eq, Bool.and_eq_true,
      beq_iff_eq] at hab hbc ⊢
    omega
  · simp only [sourceOrder, Bool.or_eq_true, decide_eq_true_eq, Bool.and_eq_true, beq_iff_eq]
    omega

section

variable {headers : List Header} {sources : List Source}

/-- Behind the methods that a type was read with, those of a type that a name stands for are sorted
by source and number. -/
theorem pairwise_drop_typesAfter {name : Text} {i : Nat} {d f : TypeDecl}
    (hplace : placeOf? headers sources name = some i)
    (hd : (typesBefore headers sources)[i]? = some d)
    (hf : (typesAfter headers sources)[i]? = some f) :
    (f.methods.drop d.methods.length).Pairwise fun a b =>
      sourceOrder (sourceRank (sourceOrderByStem sources)) a b = true := by
  have hnamed : ((directoryFor headers sources).registry.entries.map Prod.snd).contains i
      = true := by
    rw [List.contains_iff_mem]
    exact List.mem_map.mpr ⟨(name, i), (Registry.mem_entries_ofTypes _ _).mpr hplace, rfl⟩
  obtain ⟨c, hc, hn, -⟩ := take_methods_foldl_perform (directoryFor headers sources)
    (poolBefore headers sources) (allTasks sources) hd (Nat.le_refl _)
  have hlength : (c.methods.take d.methods.length).length = d.methods.length :=
    List.length_take_of_le hn
  rw [getElem?_typesAfter, poolAfter, hc, Option.map_some, settle, if_pos hnamed, hd] at hf
  obtain rfl := Option.some.inj hf
  simp only [Option.map_some, Option.getD_some, orderMethods]
  rw [List.drop_left' hlength]
  exact pairwise_mergeSort_sourceOrder _ _

/-! ### Where methods stand in the texts -/

/-- Whether a method stands before another one in the texts of the sources: in one whose name comes
first, or in the same and not behind it. -/
def Method.StandsBefore (a b : Method) : Prop :=
  (a.targetFile ≠ b.targetFile ∧ Text.precedes a.targetFile b.targetFile = true) ∨
    (a.targetFile = b.targetFile ∧ a.position ≤ b.position)

/-- Whether a method is one that the source has, or that with another owner or another mark. -/
def Source.Holds (s : Source) (m : Method) : Prop :=
  ∃ k ∈ s.methods ++ s.locals, m = k ∨ m = k.markAmbiguous ∨ ∃ name, m = k.ownedBy name

/-- A method that a source holds stands where one of its methods stands. -/
theorem Source.Holds.exists_place {s : Source} {m : Method} (h : s.Holds m) :
    ∃ k ∈ s.methods ++ s.locals,
      k.targetFile = m.targetFile ∧ k.position = m.position ∧ k.order = m.order := by
  obtain ⟨k, hk, hm⟩ := h
  refine ⟨k, hk, ?_⟩
  rcases hm with rfl | rfl | ⟨name, rfl⟩
  · exact ⟨rfl, rfl, rfl⟩
  · exact ⟨rfl, rfl, rfl⟩
  · exact ⟨rfl, rfl, rfl⟩

/-- What a type keeps is held by a source. -/
theorem exists_holds_of_mem_keptAt {m : Method} {i : Nat}
    (hm : m ∈ keptAt (handovers headers sources) i) : ∃ s ∈ sources, s.Holds m := by
  obtain ⟨h, hmem, hkept⟩ := List.mem_filterMap.mp hm
  obtain ⟨s, hs, himpl⟩ := List.mem_flatMap.mp (impl_mem_of_mem_handovers hmem)
  obtain ⟨done, todo, hrun⟩ := List.append_of_mem hmem
  obtain ⟨ts, us, -, -, hdecided⟩ := handoversFrom_eq_append hrun
  cases hfate : h.fate with
  | dropped => simp [hfate] at hkept
  | merged k j => simp [hfate] at hkept
  | kept k m' =>
      have hm' : m' = m := by
        simp only [hfate, Option.ite_none_right_eq_some, Option.some.injEq] at hkept
        exact hkept.2
      rw [hfate, hm', eq_comm] at hdecided
      refine ⟨s, hs, h.impl, List.mem_append_left _ himpl, ?_⟩
      exact (fateOf_eq_kept hdecided).2.imp_right Or.inl

/-- Local functions are held by a source, whatever type takes them in. -/
theorem exists_holds_of_mem_allFunctions {m : Method} (hm : m ∈ allFunctions sources)
    (name : Text) : ∃ s ∈ sources, s.Holds (m.ownedBy name) := by
  obtain ⟨s, hs, hm⟩ := List.mem_flatMap.mp hm
  exact ⟨s, List.mem_mergeSort.mp hs, m, List.mem_append_right _ hm, Or.inr (Or.inr ⟨name, rfl⟩)⟩

/-- What a source that was read from a text holds has its body in that source. -/
theorem Source.Holds.targetFile_eq {s : Source} {m : Method} (h : s.Holds m)
    (hread : ∃ text path, s = (parseSource text path).1) : m.targetFile = s.stem := by
  obtain ⟨text, path, rfl⟩ := hread
  obtain ⟨k, hk, hfile, -⟩ := h.exists_place
  rw [← hfile]
  exact targetFile_of_mem_parseSource k hk

/-- **The order of methods is that of the texts**, for sources that were read from texts and have
different names. -/
theorem standsBefore_of_sourceOrder
    (hsources : ∀ s ∈ sources, ∃ text path, s = (parseSource text path).1)
    (hstems : (sources.map Source.stem).Nodup) {a b : Method} (ha : ∃ s ∈ sources, s.Holds a)
    (hb : ∃ s ∈ sources, s.Holds b)
    (hle : sourceOrder (sourceRank (sourceOrderByStem sources)) a b = true) :
    a.StandsBefore b := by
  obtain ⟨s, hs, ha⟩ := ha
  obtain ⟨r, hr, hb⟩ := hb
  have hsorted : ((sourceOrderByStem sources).map Source.stem).Nodup :=
    ((List.mergeSort_perm _ _).map _).nodup_iff.mpr hstems
  obtain ⟨k, hk⟩ : ∃ k : Nat, (sourceOrderByStem sources)[k]? = some s :=
    List.mem_iff_getElem?.mp (List.mem_mergeSort.mpr hs)
  obtain ⟨l, hl⟩ : ∃ l : Nat, (sourceOrderByStem sources)[l]? = some r :=
    List.mem_iff_getElem?.mp (List.mem_mergeSort.mpr hr)
  have hfile : a.targetFile = s.stem := ha.targetFile_eq (hsources s hs)
  have hfile' : b.targetFile = r.stem := hb.targetFile_eq (hsources r hr)
  have hrank := sourceRank_of_nodup hsorted hk
  have hrank' := sourceRank_of_nodup hsorted hl
  simp only [sourceOrder, hfile, hfile', hrank, hrank', Bool.or_eq_true, decide_eq_true_eq,
    Bool.and_eq_true, beq_iff_eq] at hle
  rw [Method.StandsBefore, hfile, hfile']
  rcases hle with hlt | ⟨rfl, horder⟩
  · refine Or.inl ⟨fun heq => ?_, ?_⟩
    · rw [heq, hrank'] at hrank
      omega
    · obtain ⟨hkl, rfl⟩ := List.getElem?_eq_some_iff.mp hk
      obtain ⟨hll, rfl⟩ := List.getElem?_eq_some_iff.mp hl
      exact List.pairwise_iff_getElem.mp (pairwise_sourceOrderByStem sources) k l hkl hll hlt
  · obtain rfl : s = r := Option.some.inj (hk.symm.trans hl)
    obtain ⟨text, path, rfl⟩ := hsources s hs
    obtain ⟨m, hm, -, hposition, hnumber⟩ := ha.exists_place
    obtain ⟨n, hn, -, hposition', hnumber'⟩ := hb.exists_place
    refine Or.inr ⟨rfl, ?_⟩
    rw [← hposition, ← hposition']
    exact position_le_of_order_le hm hn (by omega)

/-- Completing methods leaves their names. -/
theorem map_name_completed (run : List Handover) (i : Nat) (methods : List Method) :
    (completed run i methods).map Method.name = methods.map Method.name := by
  refine List.ext_getElem? fun j => ?_
  rw [List.getElem?_map, List.getElem?_map, completed, List.getElem?_mapIdx, Option.map_map]
  refine congrArg (fun f => Option.map f _) (funext fun m => ?_)
  cases completion? run i j with
  | none => rfl
  | some impl => rfl

/-- **Methods are in the order of declarations, then of the texts**, for all headers and sources
that were read from texts, where no two sources have the same name: the methods of every type of a
plan start with those that its header declared, as the header has them and completed as the record
says; all others follow, each of them an implementation that the type keeps or a local function, in
the order of the sources' names and in each source from top to bottom. -/
theorem ordered_ofParts (hheaders : ∀ h ∈ headers, ∃ text path, h = (parseHeader text path).1)
    (hsources : ∀ s ∈ sources, ∃ text path, s = (parseSource text path).1)
    (hstems : (sources.map Source.stem).Nodup) {t : TypeDecl}
    (ht : t ∈ (Plan.ofParts headers sources).types) :
    ∃ (i : Nat) (d : TypeDecl) (rest functions : List Method),
      placeOf? headers sources t.name = some i ∧ (typesBefore headers sources)[i]? = some d ∧
      d ∈ headers.flatMap Header.types ∧ d.positions.Pairwise (· < ·) ∧
      t.methods = completed (handovers headers sources) i d.methods ++ rest ∧
      functions.Sublist (allFunctions sources) ∧
      rest.Perm (keptAt (handovers headers sources) i ++ functions.map (·.ownedBy d.name)) ∧
      (∀ m ∈ rest, ∃ s ∈ sources, s.Holds m ∧ m.targetFile = s.stem) ∧
      rest.Pairwise Method.StandsBefore := by
  have hbodies : ∀ s ∈ sources, s.HasBodies := by
    intro s hs
    obtain ⟨text, path, rfl⟩ := hsources s hs
    exact hasBodies_parseSource text path
  obtain ⟨i, d, hplace, hd, hafter, hheader⟩ := exists_declared_of_mem_types ht
  obtain ⟨f, rest, functions, hf, -, hmethods, hsub, hperm⟩ := exists_methods_typesAfter hbodies hd
  obtain rfl : t = f := Option.some.inj (hafter.symm.trans hf)
  have hholds : ∀ m ∈ rest, ∃ s ∈ sources, s.Holds m := by
    intro m hm
    rcases List.mem_append.mp (hperm.subset hm) with hm | hm
    · exact exists_holds_of_mem_keptAt hm
    · obtain ⟨k, hk, rfl⟩ := List.mem_map.mp hm
      exact exists_holds_of_mem_allFunctions (hsub.subset hk) _
  have hdeclared : d.positions.Pairwise (· < ·) := by
    obtain ⟨h, hh, hdh⟩ := List.mem_flatMap.mp hheader
    obtain ⟨text, path, rfl⟩ := hheaders h hh
    exact positions_parseHeader hdh
  have hsorted := pairwise_drop_typesAfter hplace hd hafter
  rw [hmethods, List.drop_left' (by simp [completed])] at hsorted
  refine ⟨i, d, rest, functions, hplace, hd, hheader, hdeclared, hmethods, hsub, hperm, ?_, ?_⟩
  · intro m hm
    obtain ⟨s, hs, hm⟩ := hholds m hm
    exact ⟨s, hs, hm, hm.targetFile_eq (hsources s hs)⟩
  · refine hsorted.imp_of_mem fun ha hb hle => ?_
    exact standsBefore_of_sourceOrder hsources hstems (hholds _ ha) (hholds _ hb) hle

end

/-- A header that declares a class with one method. -/
def shelfHeader : Header where
  stem := "Shelf"
  types := [{
    name := "Shelf"
    file := "Shelf"
    methods := [{ name := "size", returnType := "int", visibility := .pub, owner := "Shelf",
                  originFile := "Shelf", order := 1, position := 26 }] }]

/-- A source with one implementation of the class. -/
def shelfSource (stem name : Text) : Source where
  stem := stem
  methods := [{ name := name, returnType := "void", owner := "Shelf", body := some [],
                targetFile := stem, originFile := stem, order := 1 }]

/-- Two sources, each with an implementation that the header does not declare. -/
def shelfSources : List Source :=
  [shelfSource "a" "first", shelfSource "b" "second"]

/-- The header is read from a text. -/
theorem exists_text_shelfHeader : ∃ text path, shelfHeader = (parseHeader text path).1 :=
  ⟨"class Shelf\n\x7b\npublic:\n    int size();\n\x7d;\n", "Shelf.h", by decide +kernel⟩

/-- Both sources are read from texts. -/
theorem exists_text_shelfSources :
    ∀ s ∈ shelfSources, ∃ text path, s = (parseSource text path).1 := by
  intro s hs
  simp only [shelfSources, List.mem_cons, List.not_mem_nil, or_false] at hs
  rcases hs with rfl | rfl
  · exact ⟨"void Shelf::first()\n\x7b\n\x7d\n", "a.cpp", by decide +kernel⟩
  · exact ⟨"void Shelf::second()\n\x7b\n\x7d\n", "b.cpp", by decide +kernel⟩

/-- The method that the header declares comes first, and behind it those of the two sources. -/
theorem ordered_shelf :
    ∃ t ∈ (Plan.ofParts [shelfHeader] shelfSources).types,
      (t.methods.take 1).map Method.name = [("size" : Text)] ∧
      ((t.methods.drop 1).map Method.name).Perm [("first" : Text), "second"] ∧
      (t.methods.drop 1).Pairwise Method.StandsBefore := by
  have hsort : shelfSources.mergeSort (fun a b => Text.precedes a.stem b.stem) = shelfSources := by
    refine List.mergeSort_of_pairwise ?_
    decide +kernel
  have hnames : (Plan.ofParts [shelfHeader] shelfSources).types.map TypeDecl.name
      = [("Shelf" : Text)] := by
    rw [Plan.ofParts, reconcileTypes]
    dsimp only
    rw [hsort]
    decide +kernel
  obtain ⟨t, htypes, hname⟩ := List.map_eq_singleton_iff.mp hnames
  have ht : t ∈ (Plan.ofParts [shelfHeader] shelfSources).types := by simp [htypes]
  have hplace : placeOf? [shelfHeader] shelfSources "Shelf" = some 0 := by
    rw [placeOf?, typesBefore, sourceOrderByStem, hsort]
    decide +kernel
  have hdeclared : ((typesBefore [shelfHeader] shelfSources)[0]?.map fun d =>
      d.methods.map Method.name) = some [("size" : Text)] := by
    rw [typesBefore, sourceOrderByStem, hsort]
    decide +kernel
  have hkept : (keptAt (handovers [shelfHeader] shelfSources) 0).map Method.name
      = [("first" : Text), "second"] := by
    rw [handovers, poolBefore, directoryFor, typesBefore, allTasks, sourceOrderByStem, hsort]
    decide +kernel
  have hheaders : ∀ h ∈ [shelfHeader], ∃ text path, h = (parseHeader text path).1 := by
    simpa using exists_text_shelfHeader
  obtain ⟨i, d, rest, functions, hi, hd, -, -, hmethods, hsub, hperm, -, hrest⟩ :=
    ordered_ofParts hheaders exists_text_shelfSources (by decide +kernel) ht
  obtain rfl : 0 = i := Option.some.inj (hplace.symm.trans (hname ▸ hi))
  rw [hd, Option.map_some, Option.some.injEq] at hdeclared
  have hlength : (completed (handovers [shelfHeader] shelfSources) 0 d.methods).length = 1 := by
    rw [← List.length_map Method.name, map_name_completed, hdeclared]
    rfl
  have hlocals : allFunctions shelfSources = [] := by
    rw [allFunctions, sourceOrderByStem, hsort]
    decide +kernel
  obtain rfl : functions = [] := List.sublist_nil.mp (hlocals ▸ hsub)
  refine ⟨t, ht, ?_, ?_, ?_⟩
  · rw [hmethods, List.take_left' hlength, map_name_completed, hdeclared]
  · rw [hmethods, List.drop_left' hlength, ← hkept]
    simpa using hperm.map Method.name
  · rw [hmethods, List.drop_left' hlength]
    exact hrest

end Sharpen
