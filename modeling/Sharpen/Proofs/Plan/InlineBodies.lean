import Mathlib.Data.List.Basic
import Mathlib.Data.List.Induction
import Sharpen.Plan.Texts
import Sharpen.Proofs.Plan.Embedded

/-!
# Inline Bodies

A method that a header declares with an inline body waits for no implementation, and no
implementation of its own type is ever merged into it. An implementation may also complete a static
method of an interface that its type lists as a base, and there only a body from a source is looked
at: an inline body is displaced. This module says exactly when, over whole runs.

The body that is written for a method is that of the last implementation that has one, or that of
the header. An inline body is therefore kept if no implementation with another body is merged into
the method. The way through a base interface is the only one, since candidates of the own type are
looked at for inline bodies and static methods of a base are not.

## Main definitions

* `MayDisplace`, `mayDisplace_of_mem_mergedInto` — which implementations a run can merge into a
  method with an inline body.

## Main results

* `bodyText_foldl_merge_iff` — what implementations that are merged into a method do to the body
  that is written for it.
* `exists_base_of_fateOf_eq_merged` — an implementation reaches a method with an inline body only
  through a base of its type.
* `bodyText_inline_iff` — when the body of a method with an inline body stays as it was, for all
  headers and sources.
* `not_forall_bodyText_inline` — an inline body that is displaced.
-/

namespace Sharpen

/-! ### Bodies and merges -/

/-- The body after merging implementations is that of the last one. -/
theorem body_foldl_merge (m : Method) (impls : List Method) :
    (impls.foldl Method.merge m).body = (impls.getLast?.map Method.body).getD m.body := by
  induction impls using List.reverseRecOn with
  | nil => rfl
  | append_singleton l impl ih =>
      rw [List.foldl_concat, List.getLast?_concat]
      rfl

/-- **What merging does to the body that is written** for a method without a body of its own: it
stays iff the last implementation has no body, or the same. Without a body from an implementation,
both are what the header says. -/
theorem bodyText_foldl_merge_iff {m : Method} (hbody : m.body = none) (impls : List Method) :
    (impls.foldl Method.merge m).bodyText = m.bodyText ↔
      ∀ impl b, impls.getLast? = some impl → impl.body = some b → m.bodyText = some b := by
  have hdeclared := (retains_foldl_merge m impls).declaration
  have hinline : (impls.foldl Method.merge m).hasInlineBody = m.hasInlineBody :=
    congrArg MethodDeclaration.hasInlineBody hdeclared
  have htext : (impls.foldl Method.merge m).inlineBody = m.inlineBody :=
    congrArg MethodDeclaration.inlineBody hdeclared
  have hlast := body_foldl_merge m impls
  rw [hbody] at hlast
  have hsame : (impls.foldl Method.merge m).body = none →
      (impls.foldl Method.merge m).bodyText = m.bodyText := by
    intro hnone
    rw [Method.bodyText, Method.bodyText, hnone, hbody, hinline, htext]
  cases hfind : impls.getLast? with
  | none =>
      rw [hfind] at hlast
      refine ⟨fun _ impl b h => ?_, fun _ => hsame hlast⟩
      cases h
  | some impl =>
      rw [hfind, Option.map_some, Option.getD_some] at hlast
      cases hb : impl.body with
      | none =>
          rw [hb] at hlast
          refine ⟨fun _ k b hk hkb => ?_, fun _ => hsame hlast⟩
          obtain rfl := Option.some.inj hk
          rw [hb] at hkb
          cases hkb
      | some b =>
          rw [hb] at hlast
          have htaken : (impls.foldl Method.merge m).bodyText = some b := by
            rw [Method.bodyText, hlast]
          rw [htaken]
          refine ⟨fun heq k c hk hkc => ?_, fun h => (h impl b rfl hb).symm⟩
          obtain rfl := Option.some.inj hk
          rw [← heq, ← hb, hkc]

/-! ### One implementation -/

/-- **An implementation reaches a method with an inline body only through a base**: the method is a
static one of an interface that the owner of the implementation lists as a base, and no method of
the owner waits for the implementation. -/
theorem exists_base_of_fateOf_eq_merged {registry : Registry} {types : List TypeDecl}
    {impl m : Method} {i j : Nat} {d : TypeDecl} (h : fateOf registry types impl = .merged i j)
    (hd : types[i]? = some d) (hm : d.methods[j]? = some m) (hinline : m.hasInlineBody = true) :
    d.isInterface = true ∧ m.isStatic = true ∧ m.body = none ∧ m.name = impl.name ∧
      ∃ owner o base, registry.find? impl.owner = some owner ∧ types[owner]? = some o ∧
        matchAmong o.methods awaitsBody impl = .absent ∧ base ∈ o.bases ∧
        registry.find? base = some i := by
  obtain ⟨owner, p, howner, hfind, hp⟩ := fateOf_eq_merged h
  obtain ⟨o, ho, hwhere⟩ := findDeclaration_index hfind hp
  rcases hwhere with ⟨rfl, hmatch⟩ | ⟨habsent, base, hbase, c, hplace, hc, hinterface, hmatch⟩
  · -- A method of the owner that waits for a body has no inline body.
    obtain rfl : d = o := Option.some.inj (hd.symm.trans ho)
    obtain ⟨k, hk, hawaits, -⟩ := matchAmong_index (hmatch ▸ hp)
    obtain rfl : m = k := Option.some.inj (hm.symm.trans hk)
    simp [awaitsBody, hinline] at hawaits
  · obtain rfl : d = c := Option.some.inj (hd.symm.trans hc)
    obtain ⟨k, hk, hawaits, hname⟩ := matchAmong_index (hmatch ▸ hp)
    obtain rfl : m = k := Option.some.inj (hm.symm.trans hk)
    simp only [awaitsStaticBody, Bool.and_eq_true, Option.isNone_iff_eq_none] at hawaits
    exact ⟨hinterface, hawaits.1, hawaits.2, hname, owner, o, base, howner, ho, habsent, hbase,
      hplace⟩

/-! ### Whole runs -/

section

variable {headers : List Header} {sources : List Source}

variable (headers sources) in
/-- **Whether an implementation may displace an inline body**, namely that of the method `m` of the
type `d`: the method is a static one of an interface, and the implementation has its name and
belongs to a type that lists the interface as a base. -/
structure MayDisplace (impl : Method) (d : TypeDecl) (m : Method) : Prop where
  interface : d.isInterface = true
  static : m.isStatic = true
  name : impl.name = m.name
  heir : ∃ owner o, placeOf? headers sources impl.owner = some owner ∧
    (typesBefore headers sources)[owner]? = some o ∧ d.name ∈ o.bases

/-- A type that some tasks of the run have been performed on has the head it was read with. -/
theorem head_foldl_perform (tasks : List Task) {i : Nat} {c d : TypeDecl}
    (hc : (tasks.foldl (Task.perform (directoryFor headers sources))
      (poolBefore headers sources)).types[i]? = some c)
    (hd : (typesBefore headers sources)[i]? = some d) : c.head = d.head := by
  have hheads := congrArg (fun heads : List _ => heads[i]?)
    (map_head_foldl_perform (directoryFor headers sources) (poolBefore headers sources) tasks)
  rw [List.getElem?_map, List.getElem?_map, hc] at hheads
  exact Option.some.inj (hheads.trans (congrArg (Option.map TypeDecl.head) hd))

/-- The methods that such a type was read with have what these tasks have merged into them. -/
theorem exists_type_foldl_perform (tasks : List Task) {i j : Nat} {d : TypeDecl} {m : Method}
    (hd : (typesBefore headers sources)[i]? = some d) (hm : d.methods[j]? = some m) :
    ∃ c, (tasks.foldl (Task.perform (directoryFor headers sources))
        (poolBefore headers sources)).types[i]? = some c ∧
      c.methods[j]? = some ((mergedInto (handoversFrom (directoryFor headers sources)
        (poolBefore headers sources) tasks) i j).foldl Method.merge m) := by
  obtain ⟨c, hc, -, htake⟩ := take_methods_foldl_perform (directoryFor headers sources)
    (poolBefore headers sources) tasks hd (Nat.le_refl _)
  refine ⟨c, hc, ?_⟩
  have hj : j < d.methods.length := (List.getElem?_eq_some_iff.mp hm).1
  rw [← List.getElem?_take_of_lt hj, htake, List.take_length, enriched, List.getElem?_mapIdx, hm,
    Option.map_some]

/-- What the implementation at some point of the record met when it was merged into a method with an
inline body. It differs from the method that was read in no more than what merges change. -/
theorem mayDisplace_of_merged {done todo : List Handover} {h : Handover} {i j : Nat} {d : TypeDecl}
    {m : Method} (hrun : handovers headers sources = done ++ h :: todo)
    (hfate : h.fate = .merged i j) (hd : (typesBefore headers sources)[i]? = some d)
    (hm : d.methods[j]? = some m) (hinline : m.hasInlineBody = true) :
    MayDisplace headers sources h.impl d m ∧
      ((mergedInto done i j).foldl Method.merge m).body = none := by
  obtain ⟨ts, us, -, rfl, hdecided⟩ := handoversFrom_eq_append hrun
  obtain ⟨c, hc, hmet⟩ := exists_type_foldl_perform ts hd hm
  generalize hmerged : mergedInto (handoversFrom (directoryFor headers sources)
    (poolBefore headers sources) ts) i j = before at hmet
  have hdeclared := (retains_foldl_merge m before).declaration
  have hinline' : (before.foldl Method.merge m).hasInlineBody = true :=
    (congrArg MethodDeclaration.hasInlineBody hdeclared).trans hinline
  rw [hfate, eq_comm] at hdecided
  obtain ⟨hinterface, hstatic, hbody, hname, owner, o, base, howner, ho, -, hbase, hplace⟩ :=
    exists_base_of_fateOf_eq_merged hdecided hc hmet hinline'
  rw [find?_directoryFor] at howner hplace
  obtain ⟨o', ho', -⟩ := exists_type_of_placeOf? howner
  have hbases : o.bases = o'.bases :=
    congrArg (fun t => t.2.2.1) (head_foldl_perform ts ho ho')
  have hkind : c.isInterface = d.isInterface :=
    congrArg (fun t => t.2.1 == .interfaceType) (head_foldl_perform ts hc hd)
  refine ⟨⟨hkind ▸ hinterface, ?_, ?_, owner, o', howner, ho', ?_⟩, hbody⟩
  · exact (congrArg MethodDeclaration.isStatic hdeclared).symm.trans hstatic
  · exact hname.symm.trans (congrArg MethodDeclaration.name hdeclared)
  · rw [name_of_placeOf? hplace hd, ← hbases]
    exact hbase

/-- **Every implementation that a run merges into a method with an inline body** is one that may
displace it. -/
theorem mayDisplace_of_mem_mergedInto {i j : Nat} {d : TypeDecl} {m impl : Method}
    (hd : (typesBefore headers sources)[i]? = some d) (hm : d.methods[j]? = some m)
    (hinline : m.hasInlineBody = true)
    (himpl : impl ∈ mergedInto (handovers headers sources) i j) :
    MayDisplace headers sources impl d m := by
  obtain ⟨h, hh, rfl⟩ := List.mem_map.mp himpl
  obtain ⟨hmem, hfate⟩ := List.mem_filter.mp hh
  obtain ⟨done, todo, hrun⟩ := List.append_of_mem hmem
  exact (mayDisplace_of_merged hrun (by simpa using hfate) hd hm hinline).1

/-- A method with an inline body that was read with another body takes nothing. The first
implementation that is merged would have met the method as it was read. -/
theorem mergedInto_eq_nil_of_body {i j : Nat} {d : TypeDecl} {m : Method}
    (hd : (typesBefore headers sources)[i]? = some d) (hm : d.methods[j]? = some m)
    (hinline : m.hasInlineBody = true) (hbody : m.body ≠ none) :
    mergedInto (handovers headers sources) i j = [] := by
  cases hfind : (handovers headers sources).find? (·.fate == .merged i j) with
  | none =>
      rw [mergedInto, List.map_eq_nil_iff, List.filter_eq_nil_iff]
      exact List.find?_eq_none.mp hfind
  | some h =>
      obtain ⟨hfate, done, todo, hrun, hbefore⟩ := List.find?_eq_some_iff_append.mp hfind
      have hnone : mergedInto done i j = [] := by
        rw [mergedInto, List.map_eq_nil_iff, List.filter_eq_nil_iff]
        intro k hk
        simpa using hbefore k hk
      have hmet := (mayDisplace_of_merged hrun (by simpa using hfate) hd hm hinline).2
      rw [hnone] at hmet
      exact absurd hmet hbody

/-- **When inline bodies stay**, for all headers and sources: every type of a plan comes from a
header, and of each of its methods that the header declared with an inline body, the body that is
written is the same as before iff the last implementation that the run has merged into the method
has no other body. All these implementations belong to types that list the type as a base, and the
method is then a static one of an interface; if there are none of this kind in the sources, the
body stays. -/
theorem bodyText_inline_iff {t : TypeDecl} (ht : t ∈ (Plan.ofParts headers sources).types) :
    ∃ i d, placeOf? headers sources t.name = some i ∧
      (typesBefore headers sources)[i]? = some d ∧ d ∈ headers.flatMap Header.types ∧
      ∀ j m, d.methods[j]? = some m → m.hasInlineBody = true →
        ∃ final, t.methods[j]? = some final ∧
          (final.bodyText = m.bodyText ↔
            ∀ impl b, (mergedInto (handovers headers sources) i j).getLast? = some impl →
              impl.body = some b → m.bodyText = some b) ∧
          (∀ impl ∈ mergedInto (handovers headers sources) i j,
            MayDisplace headers sources impl d m) ∧
          ((∀ impl ∈ sources.flatMap Source.methods, ¬ MayDisplace headers sources impl d m) →
            final.bodyText = m.bodyText) := by
  obtain ⟨i, d, hplace, hd, hafter, hheader⟩ := exists_declared_of_mem_types ht
  refine ⟨i, d, hplace, hd, hheader, fun j m hm hinline => ?_⟩
  obtain ⟨f, hf, htake⟩ := exists_take_typesAfter hd
  obtain rfl : t = f := Option.some.inj (hafter.symm.trans hf)
  have hj : j < d.methods.length := (List.getElem?_eq_some_iff.mp hm).1
  have hfinal : t.methods[j]? = some ((mergedInto (handovers headers sources) i j).foldl
      Method.merge m) := by
    rw [← List.getElem?_take_of_lt hj, htake, enriched, List.getElem?_mapIdx, hm, Option.map_some]
  have hmay : ∀ impl ∈ mergedInto (handovers headers sources) i j,
      MayDisplace headers sources impl d m :=
    fun impl himpl => mayDisplace_of_mem_mergedInto hd hm hinline himpl
  have hiff : ((mergedInto (handovers headers sources) i j).foldl Method.merge m).bodyText
        = m.bodyText ↔
      ∀ impl b, (mergedInto (handovers headers sources) i j).getLast? = some impl →
        impl.body = some b → m.bodyText = some b := by
    by_cases hbody : m.body = none
    · exact bodyText_foldl_merge_iff hbody _
    · rw [mergedInto_eq_nil_of_body hd hm hinline hbody]
      simp
  refine ⟨_, hfinal, hiff, hmay, fun hnone => hiff.mpr fun impl b hlast => ?_⟩
  have himpl : impl ∈ mergedInto (handovers headers sources) i j := List.mem_of_getLast? hlast
  obtain ⟨h, hh, rfl⟩ := List.mem_map.mp himpl
  have hsource := impl_mem_of_mem_handovers (List.mem_filter.mp hh).1
  exact absurd (hmay h.impl himpl) (hnone h.impl hsource)

end

/-- A header that declares a class with one method, which has an inline body. -/
def gridHeader : Header where
  stem := "Grid"
  types := [{
    name := "Grid"
    file := "Grid"
    methods := [{ name := "size", returnType := "int", visibility := .pub, hasInlineBody := true,
                  inlineBody := "return 1;", owner := "Grid", originFile := "Grid" }] }]

/-- A source that implements this method once more. -/
def gridSource : Source where
  stem := "Grid"
  methods := [{ name := "size", returnType := "int", owner := "Grid", body := some "return 2;",
                targetFile := "Grid", originFile := "Grid" }]

/-- The inline body stays, for the class is no interface. -/
theorem bodyText_inline_grid :
    (Plan.ofParts [gridHeader] [gridSource]).types.map TypeDecl.name = [("Grid" : Text)] ∧
      ∀ t ∈ (Plan.ofParts [gridHeader] [gridSource]).types,
        ∃ m, t.methods[0]? = some m ∧ m.bodyText = some ("return 1;" : Text) := by
  refine ⟨by decide +kernel, fun t ht => ?_⟩
  obtain ⟨i, d, -, -, hd, hall⟩ := bodyText_inline_iff ht
  obtain rfl : d = gridHeader.types.head (by decide) := by simpa [gridHeader] using hd
  obtain ⟨m, hm, -, -, hstays⟩ := hall 0 _ rfl rfl
  exact ⟨m, hm, hstays fun impl _ hmay => by cases hmay.interface⟩

/-- An interface with an inline static method, and a class that lists it as a base. -/
def limitHeaderText : Text :=
  "class IStore\n\x7b\npublic:\n    virtual int Count() = 0;\n" ++
  "    static int Limit() \x7b return 10; \x7d\n\x7d;\n" ++
  "class Store : public IStore\n\x7b\n\x7d;\n"

/-- A source that implements a method of the class that has the name of the static method. -/
def limitSourceText : Text :=
  "int Store::Limit()\n\x7b\n    return 99;\n\x7d\n"

/-- **An inline body can be displaced**: not for all headers and sources that are read from texts is
the body that is written for a method with an inline body the inline one. -/
theorem not_forall_bodyText_inline :
    ¬ ∀ (headers : List Header) (sources : List Source),
      (∀ h ∈ headers, ∃ text path, h = (parseHeader text path).1) →
      (∀ s ∈ sources, ∃ text path, s = (parseSource text path).1) →
      ∀ t ∈ (Plan.ofParts headers sources).types, ∀ m ∈ t.methods, m.hasInlineBody = true →
        m.bodyText = some m.inlineBody := by
  intro hall
  have hstays := hall [(parseHeader limitHeaderText "Store.h").1]
    [(parseSource limitSourceText "Store.cpp").1]
    (fun _ hh => ⟨_, _, List.mem_singleton.mp hh⟩) (fun _ hs => ⟨_, _, List.mem_singleton.mp hs⟩)
  revert hstays
  decide +kernel

end Sharpen
