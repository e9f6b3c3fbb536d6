import Mathlib.Data.List.Basic
import Sharpen.CSharp.File

/-!
# What an Interface Is Written From

The extensions of an interface take bodies from the implementations of the whole run, and its
factories name the type that some body constructs. Both are looked up by the name of the method
alone. This module says which implementations are consulted, and that the text depends on no others.

The two look-ups are made precise as functions that give the donor: the implementation that a body
comes from, and the one that a type comes from. The text is then a function of the donors, and
leaving out implementations changes nothing as long as the donors stay. Whose method a donor is
plays no part in it, although the declarations of an interface are paired with the methods of
classes that list it as a base, and with no others.

## Main definitions

* `consulted` — the implementations that something is taken from: for every static method without a
  body the first one of its name that has a body, and, if no factory of the interface constructs
  anything, the first one with the name of a factory that does.
* `factories` — the factories of an interface.
* `constructedType?` — the first type that the body of a method constructs.
* `bodyUnder?` — the body of an implementation called `name`.
* `typeUnder?` — the type that an implementation constructs, if it is called like a factory.

## Main results

* `Writer.interface_filter` — implementations that are not consulted can be left out.
* `interface_filter_serves` — so those that do not serve the interface can be left out if none of
  them is consulted; one that is consulted gives its body or its type away, whoever owns it.
* `not_forall_interface_filter_serves` — in general they cannot: a class that has nothing to do with
  the interface, but a method of the same name, changes the text.
* `extensionBody_of_bodyDonor?` — the donor's body is written, whoever owns it.
* `implementingType?_of_typeDonor?` — the donor's type is named, whoever owns it.
-/

namespace Sharpen

/-! ### Searching among fewer elements -/

/-- Leaving out elements does not change what a search finds, unless the one that it is found with
is left out. -/
theorem findSome?_filter {α β : Type} {f : α → Option β} {keep : α → Bool} {l : List α}
    (hkeep : ∀ a, l.find? (fun a => (f a).isSome) = some a → keep a = true) :
    (l.filter keep).findSome? f = l.findSome? f := by
  induction l with
  | nil => rfl
  | cons a r ih =>
      cases hf : f a with
      | some b =>
          have ha : keep a = true := hkeep a (by simp [hf])
          rw [List.filter_cons_of_pos ha, List.findSome?_cons, List.findSome?_cons, hf]
      | none =>
          have hr := ih fun b hb => hkeep b (by simpa [List.find?_cons, hf] using hb)
          rw [List.findSome?_cons, hf, List.filter_cons]
          split
          · rw [List.findSome?_cons, hf]
            exact hr
          · exact hr

/-- A search among what the elements of a list give. -/
theorem findSome?_filterMap {α β γ : Type} (g : α → Option β) (f : β → Option γ) (l : List α) :
    (l.filterMap g).findSome? f = l.findSome? fun a => (g a).bind f := by
  induction l with
  | nil => rfl
  | cons a r ih =>
      rw [List.findSome?_cons]
      cases hg : g a with
      | none => rw [List.filterMap_cons_none hg, Option.bind_none, ih]
      | some b => rw [List.filterMap_cons_some hg, List.findSome?_cons, Option.bind_some, ih]

/-- A search among the elements that satisfy a condition. -/
theorem findSome?_filter_eq {α β : Type} (f : α → Option β) (q : α → Bool) (l : List α) :
    (l.filter q).findSome? f = l.findSome? fun a => if q a then f a else none := by
  have hguard : ∀ a, (Option.guard q a).bind f = if q a then f a else none := by
    intro a
    by_cases hq : q a = true <;> simp [Option.guard, hq]
  rw [← List.filterMap_eq_filter, findSome?_filterMap]
  simp only [hguard]

/-! ### What is taken from implementations -/

/-- The factories of an interface. -/
def factories (d : TypeDecl) : List Method :=
  (staticMethods d).filter fun m => isFactory m d.name

/-- The first type that the body of a method constructs. -/
def constructedType? (m : Method) : Option Text :=
  m.bodyIfAny.bind fun b => (newExpression.findAll b).head?

/-- The body of an implementation called `name`. -/
def bodyUnder? (name : Text) (m : Method) : Option Text :=
  if m.name == name then m.bodyIfAny else none

/-- The type that an implementation constructs, if it is called like a factory. -/
def typeUnder? (d : TypeDecl) (m : Method) : Option Text :=
  if ((factories d).map Method.name).contains m.name then constructedType? m else none

/-- The implementation that gives its body to a static method: the first one of the same name that
has a body. A method with a body of its own needs none. -/
def bodyDonor? (implementations : List Method) (x : Method) : Option Method :=
  if x.body.isSome then none else implementations.find? fun m => (bodyUnder? x.name m).isSome

/-- The implementation that gives the factories of an interface their type: the first one called
like a factory that constructs something. If a factory does so itself, none is needed. -/
def typeDonor? (d : TypeDecl) (implementations : List Method) : Option Method :=
  if ((factories d).findSome? constructedType?).isSome then none
  else implementations.find? fun m => (typeUnder? d m).isSome

/-- **The implementations that the text of an interface takes something from.** -/
def consulted (d : TypeDecl) (implementations : List Method) : List Method :=
  (staticMethods d).filterMap (bodyDonor? implementations)
    ++ (typeDonor? d implementations).toList

/-- The implementing type is found with a factory, else with an implementation called like one. -/
theorem implementingType?_eq (d : TypeDecl) (implementations : List Method) :
    implementingType? d implementations =
      if (factories d).isEmpty then none
      else some ((((factories d).findSome? constructedType?).or
        (implementations.findSome? (typeUnder? d))).getD (conventionalImplementation d.name)) := by
  have hsearch : ∀ l : List Method,
      (l.filterMap Method.bodyIfAny).findSome? (fun b => (newExpression.findAll b).head?)
        = l.findSome? constructedType? := findSome?_filterMap _ _
  have htype : ∀ l : List Method,
      (l.filter fun m => ((factories d).map Method.name).contains m.name).findSome?
        constructedType? = l.findSome? (typeUnder? d) := findSome?_filter_eq _ _
  rw [implementingType?]
  simp only [List.findSome?_append, hsearch]
  rw [← factories, htype]

/-- The implementing type stays the same without implementations that are not consulted. -/
theorem implementingType?_filter {d : TypeDecl} {implementations : List Method}
    {keep : Method → Bool} (hkeep : ∀ m ∈ consulted d implementations, keep m = true) :
    implementingType? d (implementations.filter keep) = implementingType? d implementations := by
  rw [implementingType?_eq, implementingType?_eq]
  cases hown : (factories d).findSome? constructedType? with
  | some name => rw [Option.some_or, Option.some_or]
  | none =>
      have hdonor : ∀ m, implementations.find? (fun m => (typeUnder? d m).isSome) = some m →
          keep m = true := by
        intro m hm
        refine hkeep m (List.mem_append_right _ ?_)
        simp [typeDonor?, hown, hm]
      rw [findSome?_filter hdonor]

/-- The bodies that an extension may take from elsewhere. -/
theorem extensionBody_eq (d : TypeDecl) (implementing : Option Text) (implementations : List Method)
    (x : Method) :
    extensionBody d implementing implementations x =
      (x.body.or (implementations.findSome? (bodyUnder? x.name))).or
        (if isFactory x d.name then
          implementing.map fun n : Text => (("return new " : Text) ++ n ++ "();")
        else none) := by
  have hsearch : (implementations.filter (·.name == x.name)).findSome? Method.bodyIfAny
      = implementations.findSome? (bodyUnder? x.name) := findSome?_filter_eq _ _ _
  rw [extensionBody, hsearch]

/-- The body of every extension stays the same without implementations that are not consulted. -/
theorem extensionBody_filter {d : TypeDecl} {implementations : List Method}
    {keep : Method → Bool} (hkeep : ∀ m ∈ consulted d implementations, keep m = true)
    (implementing : Option Text) {x : Method} (hx : x ∈ staticMethods d) :
    extensionBody d implementing (implementations.filter keep) x
      = extensionBody d implementing implementations x := by
  rw [extensionBody_eq, extensionBody_eq]
  cases hbody : x.body with
  | some b => rfl
  | none =>
      have hdonor : ∀ m, implementations.find? (fun m => (bodyUnder? x.name m).isSome) = some m →
          keep m = true := by
        intro m hm
        refine hkeep m (List.mem_append_left _ (List.mem_filterMap.mpr ⟨x, hx, ?_⟩))
        simp [bodyDonor?, hbody, hm]
      rw [findSome?_filter hdonor]

/-! ### What a donor gives -/

/-- A search gives what the first element with a result gives. -/
theorem findSome?_of_find? {α β : Type} {f : α → Option β} {l : List α} {a : α}
    (ha : l.find? (fun a => (f a).isSome) = some a) : l.findSome? f = f a := by
  obtain ⟨hsome, before, after, rfl, hbefore⟩ := List.find?_eq_some_iff_append.mp ha
  have hnone : before.findSome? f = none :=
    List.findSome?_eq_none_iff.mpr fun b hb => by simpa using hbefore b hb
  obtain ⟨b, hb⟩ := Option.isSome_iff_exists.mp hsome
  rw [List.findSome?_append, hnone, Option.none_or, List.findSome?_cons, hb]

/-- **The donor's body is written**, whoever owns it. -/
theorem extensionBody_of_bodyDonor? {implementations : List Method} {x m : Method}
    (hm : bodyDonor? implementations x = some m) (d : TypeDecl) (implementing : Option Text) :
    m.name = x.name ∧ extensionBody d implementing implementations x = m.body := by
  rw [bodyDonor?] at hm
  split at hm
  · cases hm
  · rename_i hbody
    have hnone : x.body = none := by simpa using hbody
    have hsome : (bodyUnder? x.name m).isSome = true := by simpa using List.find?_some hm
    have hname : m.name = x.name := by
      by_contra hne
      simp [bodyUnder?, hne] at hsome
    obtain ⟨b, hb⟩ := Option.isSome_iff_exists.mp hsome
    have hgiven : m.body = some b := by
      rw [bodyUnder?, if_pos (beq_iff_eq.mpr hname), Method.bodyIfAny] at hb
      exact (Option.filter_eq_some_iff.mp hb).1
    refine ⟨hname, ?_⟩
    rw [extensionBody_eq, hnone, Option.none_or, findSome?_of_find? hm, hb, Option.some_or, hgiven]

/-- **The donor's type is named**, whoever owns it. -/
theorem implementingType?_of_typeDonor? {d : TypeDecl} {implementations : List Method} {m : Method}
    (hm : typeDonor? d implementations = some m) :
    implementingType? d implementations = constructedType? m := by
  rw [typeDonor?] at hm
  split at hm
  · cases hm
  · rename_i hown
    have hnone : (factories d).findSome? constructedType? = none := by simpa using hown
    have hsome : (typeUnder? d m).isSome = true := by simpa using List.find?_some hm
    have hlike : ((factories d).map Method.name).contains m.name = true := by
      by_contra hne
      rw [typeUnder?, if_neg hne] at hsome
      cases hsome
    have hgiven : typeUnder? d m = constructedType? m := if_pos hlike
    have hfactories : (factories d).isEmpty = false := by
      rw [← Bool.not_eq_true, List.isEmpty_iff]
      intro hnil
      simp [hnil] at hlike
    obtain ⟨t, ht⟩ := Option.isSome_iff_exists.mp hsome
    rw [implementingType?_eq, hnone, Option.none_or, findSome?_of_find? hm, ← hgiven, ht,
      hfactories]
    rfl

/-! ### The text of an interface -/

namespace Writer

/-- The class of extensions is written from the bodies of the static methods. -/
theorem extensions_congr {d : TypeDecl} {implementing : Option Text} {first second : List Method}
    (hbody : ∀ x ∈ staticMethods d,
      extensionBody d implementing first x = extensionBody d implementing second x)
    (w : Writer) (types : TypeMap) (level : Int) :
    w.extensions types d implementing first level
      = w.extensions types d implementing second level := by
  have hone : ∀ (u : Writer) (x : Method) (l : Int), x ∈ staticMethods d →
      u.extension types d implementing first x l
        = u.extension types d implementing second x l := by
    intro u x l hx
    rw [extension, extension, hbody x hx]
  rw [extensions, extensions]
  congr 1
  refine List.foldl_ext _ _ _ fun u p hp => ?_
  exact hone _ _ _ (List.fst_mem_of_mem_zipIdx hp)

/-- **An interface is written from the implementations it consults**: all others can be left out. -/
theorem interface_filter {d : TypeDecl} {implementations : List Method} {keep : Method → Bool}
    (hkeep : ∀ m ∈ consulted d implementations, keep m = true) (w : Writer) (types : TypeMap)
    (createAttribute : Bool) (level : Int) :
    w.interface types d (implementations.filter keep) createAttribute level
      = w.interface types d implementations createAttribute level := by
  have hextensions : ∀ (u : Writer) (implementing : Option Text),
      u.extensions types d implementing (implementations.filter keep) level
        = u.extensions types d implementing implementations level :=
    fun u implementing =>
      u.extensions_congr (fun x hx => extensionBody_filter hkeep implementing hx) types level
  rw [interface, interface, implementingType?_filter hkeep]
  simp only [hextensions]

end Writer

/-! ### Types that have nothing to do with an interface -/

namespace Plan

/-- All types of a plan, those that sources define behind those of the headers. -/
def allTypes (p : Plan) : List TypeDecl :=
  p.types ++ p.files.flatMap OutputFile.embedded

/-- Whether an implementation serves an interface: its owner is the interface or a type that lists
it as a base. -/
def serves (p : Plan) (d : TypeDecl) (m : Method) : Bool :=
  m.owner == d.name || p.allTypes.any fun t => t.name == m.owner && t.bases.contains d.name

end Plan

/-- **When unrelated types do not matter.** The text of an interface is the same without the
implementations that do not serve it, if all that are consulted serve it. Whoever is consulted gives
what it has: the body of an extension is that of the first implementation of the same name, and the
type for the factories is the one that it constructs. -/
theorem interface_filter_serves (p : Plan) (d : TypeDecl) :
    ((∀ m ∈ consulted d p.implementations, p.serves d m = true) →
      ∀ (w : Writer) (types : TypeMap) (createAttribute : Bool) (level : Int),
        w.interface types d (p.implementations.filter (p.serves d)) createAttribute level
          = w.interface types d p.implementations createAttribute level) ∧
    (∀ x ∈ staticMethods d, ∀ m, bodyDonor? p.implementations x = some m →
      m.name = x.name ∧ ∀ implementing,
        extensionBody d implementing p.implementations x = m.body) ∧
    (∀ m, typeDonor? d p.implementations = some m →
      implementingType? d p.implementations = constructedType? m) := by
  refine ⟨fun hserve w types createAttribute level => ?_, fun x _ m hm => ?_, fun m hm => ?_⟩
  · exact w.interface_filter hserve types createAttribute level
  · refine ⟨?_, fun implementing => ?_⟩
    · exact (extensionBody_of_bodyDonor? hm d none).1
    · exact (extensionBody_of_bodyDonor? hm d implementing).2
  · exact implementingType?_of_typeDonor? hm

/-- An interface with a factory. -/
def storeInterface : TypeDecl where
  name := "IStore"
  kind := .interfaceType
  isExported := true
  file := "Store"
  methods := [{ name := "GetInstance", returnType := "IStore*", isStatic := true,
                visibility := .pub }]

/-- A class with one method, in the file of the interface. -/
def storeClass (name method : Text) (bases : List Text) : TypeDecl where
  name := name
  file := "Store"
  bases := bases
  methods := [{ name := method, isStatic := true, visibility := .pub }]

/-- The implementation of this method, which constructs an object of its class. -/
def storeMethod (name method : Text) : Method where
  name := method
  owner := name
  targetFile := "Store"
  body := some ("return new " ++ name ++ "();")

/-- A plan with the interface, a class `Cache` with the given bases and a method called like the
factory, and a class `Log` with another method. -/
def storePlan (bases : List Text) : Plan :=
  Plan.ofParts
    [{ stem := "Store"
       types := [storeInterface, storeClass "Cache" "GetInstance" bases,
                 storeClass "Log" "Open" []] }]
    [{ stem := "Store"
       methods := [storeMethod "Cache" "GetInstance", storeMethod "Log" "Open"] }]

/-- If `Cache` implements the interface, the text is the same without what `Log` implements. -/
theorem interface_filter_serves_store :
    (storePlan ["IStore"]).implementations.filter ((storePlan ["IStore"]).serves storeInterface)
        = [storeMethod "Cache" "GetInstance"] ∧
      (∀ m ∈ consulted storeInterface (storePlan ["IStore"]).implementations,
        (storePlan ["IStore"]).serves storeInterface m = true) ∧
      Writer.interface {} [] storeInterface [storeMethod "Cache" "GetInstance"] true 1
        = Writer.interface {} [] storeInterface (storePlan ["IStore"]).implementations true 1 := by
  have hfilter : (storePlan ["IStore"]).implementations.filter
      ((storePlan ["IStore"]).serves storeInterface) = [storeMethod "Cache" "GetInstance"] := by
    decide +kernel
  have hserve : ∀ m ∈ consulted storeInterface (storePlan ["IStore"]).implementations,
      (storePlan ["IStore"]).serves storeInterface m = true := by
    decide +kernel
  refine ⟨hfilter, hserve, ?_⟩
  rw [← hfilter]
  exact (interface_filter_serves (storePlan ["IStore"]) storeInterface).1 hserve {} [] true 1

/-- Unrelated types can matter: `Cache` has nothing to do with the interface, and still the factory
constructs a `Cache` because of it. -/
theorem not_forall_interface_filter_serves :
    ¬ ∀ (p : Plan) (d : TypeDecl), d ∈ p.types → d.isInterface = true →
      ∀ (w : Writer) (types : TypeMap) (createAttribute : Bool) (level : Int),
        w.interface types d (p.implementations.filter (p.serves d)) createAttribute level
          = w.interface types d p.implementations createAttribute level := by
  intro hall
  have hmem : storeInterface ∈ (storePlan []).types := by decide +kernel
  have hsame := hall (storePlan []) storeInterface hmem rfl {} [] true 1
  have hdiffer : Writer.interface {} [] storeInterface
      ((storePlan []).implementations.filter ((storePlan []).serves storeInterface)) true 1
        ≠ Writer.interface {} [] storeInterface (storePlan []).implementations true 1 := by
    decide +kernel
  exact hdiffer hsame

end Sharpen
