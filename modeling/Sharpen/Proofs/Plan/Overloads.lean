import Mathlib.Data.List.Nodup
import Mathlib.Data.List.Perm.Basic
import Sharpen.Proofs.Plan.Accounting

/-!
# Who Gets an Exact Declaration

An implementation whose owner declares it exactly, with the same name and the same parameter keys,
should complete such a declaration. Handing out is one pass, though, and a pairing by name alone is
accepted as soon as a single declaration of the name is open; so an implementation that came earlier
can have taken the declaration. This module says exactly when that happens.

The turn of an implementation is a place in the record, and what it meets there is its owner as it
was read, less the declarations that were completed before. An exact declaration is missed only if
it was completed before, by another overload or through a base. The condition is then pushed back
from the turn to the sources: for each implementation that takes a declaration by name, it is said
what must come earlier for it to do so.

## Main definitions

* `Method.signature` — owner, name and parameter keys of a method.
* `TypeDecl.Declares` — the method at index `j` declares an implementation exactly: name and
  parameter keys agree, and it is neither local nor has it an inline body.
* `TypeDecl.Awaits` — the method at index `j` has the given name and waits for a body.
* `TypeDecl.Outrun` — an implementation is outrun by one of those before it: this one has the same
  owner and name, but nothing declares it, and all declarations of the name but one, which is that
  of the implementation, are each declarations of a single implementation that comes still earlier.
* `IsOpen` — a declaration of the type `d` at place `o` that nothing before has completed.

## Main results

* `exists_isMetAs` — an implementation meets its owner as it was read, less what was completed.
* `merged_exactly_iff_open` — an implementation completes an exact declaration exactly when one is
  open at its turn.
* `eq_or_isRival_of_merged` — who can have taken one: an overload of the same owner with other keys,
  or the method of a class for which the owner is a base interface.
* `merged_exactly_iff_not_outrun` — without such classes, the order of the implementations alone
  decides: an exact declaration is lost to an earlier overload that nothing declares, if all other
  declarations of the name are exactly implemented before it.
* `merged_exactly_of_forall_declares` — in particular, none is lost if all of them are declared.
* `merged_exactly_iff` — when an implementation gets an exact declaration, all in all.
* `merged_by_name_iff` — a declaration goes to an implementation by name alone exactly when it is
  the only one of the name that is open at its turn.
-/

namespace Sharpen

/-! ### Declarations of an implementation -/

/-- Owner, name and parameter keys of a method. -/
def Method.signature (m : Method) : Text × Text × List Text :=
  (m.owner, m.name, m.key)

namespace TypeDecl

/-- The method at index `j` declares an implementation exactly: name and parameter keys agree, and
it is neither local nor has it an inline body. -/
def Declares (d : TypeDecl) (impl : Method) (j : Nat) : Prop :=
  ∃ m, d.methods[j]? = some m ∧ m.hasInlineBody = false ∧ m.isLocal = false ∧
    m.name = impl.name ∧ m.key = impl.key

/-- The method at index `j` has the given name and waits for a body. -/
def Awaits (d : TypeDecl) (name : Text) (j : Nat) : Prop :=
  ∃ m, d.methods[j]? = some m ∧ awaitsBody m = true ∧ m.name = name

/-- An implementation is outrun by one of those before it: this one has the same owner and name, but
nothing declares it, and all declarations of the name but one, which is that of the implementation,
are each declarations of a single implementation that comes still earlier. -/
def Outrun (d : TypeDecl) (earlier : List Method) (impl : Method) : Prop :=
  ∃ before thief after j, earlier = before ++ thief :: after ∧
    thief.owner = impl.owner ∧ thief.name = impl.name ∧
    (∀ i, d.Awaits impl.name i → ¬ d.Declares thief i) ∧
    d.Awaits impl.name j ∧ d.Declares impl j ∧
    ∀ i, d.Awaits impl.name i → i ≠ j → ∃ k ∈ before, k.owner = impl.owner ∧ d.Declares k i ∧
      ∀ i', d.Awaits impl.name i' → d.Declares k i' → i' = i

variable {d : TypeDecl} {impl k : Method} {j : Nat}

/-- A declaration that waits for a body is an exact candidate. -/
theorem isExact_of_declares {m : Method} (hm : d.methods[j]? = some m)
    (hdeclares : d.Declares impl j) (hbody : m.body = none) :
    isExact awaitsBody impl m = true := by
  obtain ⟨m', hm', hinline, hlocal, hname, hkey⟩ := hdeclares
  obtain rfl : m = m' := Option.some.inj (hm.symm.trans hm')
  simp [isExact, awaitsBody, hinline, hlocal, hname, hkey, hbody]

/-- An exact candidate is a declaration that waits for a body. -/
theorem declares_of_isExact {m : Method} (hm : d.methods[j]? = some m)
    (hexact : isExact awaitsBody impl m = true) :
    d.Declares impl j ∧ d.Awaits impl.name j := by
  simp only [isExact, Bool.and_eq_true, beq_iff_eq] at hexact
  obtain ⟨hawaits, hname, hkey⟩ := hexact
  have hsplit := hawaits
  simp only [awaitsBody, Bool.and_eq_true, Bool.not_eq_true'] at hsplit
  exact ⟨⟨m, hm, hsplit.1.1, hsplit.2, hname, hkey⟩, m, hm, hawaits, hname⟩

/-- Implementations of one owner that the same method declares have the same signature. -/
theorem Declares.signature_eq (hi : d.Declares impl j) (hk : d.Declares k j)
    (howner : impl.owner = k.owner) : impl.signature = k.signature := by
  obtain ⟨m, hm, -, -, hname, hkey⟩ := hi
  obtain ⟨m', hm', -, -, hname', hkey'⟩ := hk
  obtain rfl : m = m' := Option.some.inj (hm.symm.trans hm')
  rw [Method.signature, Method.signature, howner, ← hname, ← hkey, hname', hkey']

end TypeDecl

/-! ### One turn -/

section

variable {headers : List Header} {sources : List Source} {done todo : List Handover} {h : Handover}
  {o : Nat} {d : TypeDecl}

/-- A declaration of the type `d` at place `o` that nothing before has completed. -/
def IsOpen (done : List Handover) (o : Nat) (d : TypeDecl) (name : Text) (j : Nat) : Prop :=
  d.Awaits name j ∧ ∀ k ∈ done, k.fate ≠ .merged o j

/-- A method that waits for a body has none. -/
theorem body_eq_none_of_awaitsBody {m : Method} (hm : awaitsBody m = true) : m.body = none := by
  simp only [awaitsBody, Bool.and_eq_true, Option.isNone_iff_eq_none] at hm
  exact hm.1.2

/-- The type `d` at place `o` is met as `c`: the methods that wait for a body in `c` are those of
`d` that nothing before has completed. -/
def IsMetAs (done : List Handover) (o : Nat) (d c : TypeDecl) : Prop :=
  ∀ (j : Nat) m, awaitsBody m = true →
    (c.methods[j]? = some m ↔ d.methods[j]? = some m ∧ ∀ k ∈ done, k.fate ≠ .merged o j)

/-- **What an implementation meets** at its turn: each type as it was read, less what the
implementations before it have completed. -/
theorem exists_isMetAs (hs : ∀ s ∈ sources, s.HasBodies)
    (hrun : handovers headers sources = done ++ h :: todo)
    (hd : (typesBefore headers sources)[o]? = some d) :
    ∃ types c, types[o]? = some c ∧
      h.fate = fateOf (directoryFor headers sources).registry types h.impl ∧
      IsMetAs done o d c := by
  obtain ⟨types, locals, hp, hfate⟩ := exists_progress hs hrun
  obtain ⟨c, hc, -⟩ := hp.exists_type hd
  refine ⟨types, c, hc, hfate, fun j m hawaits => ⟨fun hm => ?_, fun ⟨hm, hopen⟩ => ?_⟩⟩
  · obtain ⟨hread, hnone⟩ := hp.not_completed hd hc hm (body_eq_none_of_awaitsBody hawaits)
    exact ⟨hread, completion?_eq_none_iff.mp hnone⟩
  · obtain ⟨extra, ls, hmethods, -, -, -⟩ := hp.grown o d c hd hc
    have hj : j < (completed done o d.methods).length := by
      simpa [completed] using (List.getElem?_eq_some_iff.mp hm).1
    rw [hmethods, List.getElem?_append_left hj, completed, List.getElem?_mapIdx, hm,
      completion?_eq_none_iff.mpr hopen]
    rfl

namespace IsMetAs

variable {c : TypeDecl} {impl : Method} {j : Nat}

/-- The open declarations of a name are met as the candidates of this name. -/
theorem isOpen_iff (hmet : IsMetAs done o d c) :
    IsOpen done o d impl.name j ↔
      ∃ m, c.methods[j]? = some m ∧ isNamesake awaitsBody impl m = true := by
  constructor
  · rintro ⟨⟨m, hm, hawaits, hname⟩, hopen⟩
    exact ⟨m, (hmet j m hawaits).mpr ⟨hm, hopen⟩, by simp [isNamesake, hawaits, hname]⟩
  · rintro ⟨m, hm, hname⟩
    simp only [isNamesake, Bool.and_eq_true, beq_iff_eq] at hname
    obtain ⟨hread, hopen⟩ := (hmet j m hname.1).mp hm
    exact ⟨⟨m, hread, hname.1, hname.2⟩, hopen⟩

/-- Those that declare an implementation exactly are met as its exact candidates. -/
theorem declares_and_isOpen_iff (hmet : IsMetAs done o d c) :
    d.Declares impl j ∧ IsOpen done o d impl.name j ↔
      ∃ m, c.methods[j]? = some m ∧ isExact awaitsBody impl m = true := by
  constructor
  · rintro ⟨hdeclares, ⟨m, hm, hawaits, -⟩, hopen⟩
    exact ⟨m, (hmet j m hawaits).mpr ⟨hm, hopen⟩,
      TypeDecl.isExact_of_declares hm hdeclares (body_eq_none_of_awaitsBody hawaits)⟩
  · rintro ⟨m, hm, hexact⟩
    have hawaits : awaitsBody m = true := by
      rw [isExact, Bool.and_eq_true] at hexact
      exact hexact.1
    obtain ⟨hread, hopen⟩ := (hmet j m hawaits).mp hm
    obtain ⟨hdeclares, hname⟩ := TypeDecl.declares_of_isExact hread hexact
    exact ⟨hdeclares, hname, hopen⟩

end IsMetAs

/-- What an implementation completes is open until its turn. -/
theorem forall_ne_of_merged (hs : ∀ s ∈ sources, s.HasBodies)
    (hrun : handovers headers sources = done ++ h :: todo) {i j : Nat}
    (hfate : h.fate = .merged i j) : ∀ k ∈ done, k.fate ≠ .merged i j := by
  obtain ⟨-, -, -, -, -, -, -, -, -, -, hopen, -⟩ := exists_declared_of_merged hs hrun hfate
  exact completion?_eq_none_iff.mp hopen

/-- An exact declaration that an implementation completes is open at its turn. -/
theorem isOpen_of_merged (hs : ∀ s ∈ sources, s.HasBodies)
    (hrun : handovers headers sources = done ++ h :: todo)
    (hd : (typesBefore headers sources)[o]? = some d) {j : Nat} (hdeclares : d.Declares h.impl j)
    (hfate : h.fate = .merged o j) : IsOpen done o d h.impl.name j := by
  obtain ⟨-, -, d', m, -, -, hd', hm, -, hbody, -, -⟩ := exists_declared_of_merged hs hrun hfate
  obtain rfl : d = d' := Option.some.inj (hd.symm.trans hd')
  have hexact := TypeDecl.isExact_of_declares hm hdeclares hbody
  exact ⟨(TypeDecl.declares_of_isExact hm hexact).2, forall_ne_of_merged hs hrun hfate⟩

/-- **An implementation completes an exact declaration exactly when one is open at its turn.** -/
theorem merged_exactly_iff_open (hs : ∀ s ∈ sources, s.HasBodies)
    (hrun : handovers headers sources = done ++ h :: todo)
    (ho : placeOf? headers sources h.impl.owner = some o)
    (hd : (typesBefore headers sources)[o]? = some d) :
    (∃ j, d.Declares h.impl j ∧ h.fate = .merged o j) ↔
      ∃ j, d.Declares h.impl j ∧ IsOpen done o d h.impl.name j := by
  obtain ⟨types, c, hc, hdecided, hmet⟩ := exists_isMetAs hs hrun hd
  constructor
  · rintro ⟨j, hdeclares, hfate⟩
    exact ⟨j, hdeclares, isOpen_of_merged hs hrun hd hdeclares hfate⟩
  · rintro ⟨j, hopen⟩
    obtain ⟨m, hm, hexact⟩ := hmet.declares_and_isOpen_iff.mp hopen
    obtain ⟨i, hmatch⟩ := exists_matchAmong_eq_exact (List.mem_of_getElem? hm) hexact
    refine ⟨i, (hmet.declares_and_isOpen_iff.mpr (matchAmong_eq_exact hmatch)).1, ?_⟩
    rw [hdecided]
    exact fateOf_of_matchAmong ((find?_directoryFor _).trans ho) hc hmatch rfl

/-- **A declaration goes to an implementation by name alone** exactly when it is the only one of the
name that is open at its turn. An exact candidate would be open, and so it would be the one that is
taken. -/
theorem merged_by_name_iff (hs : ∀ s ∈ sources, s.HasBodies)
    (hrun : handovers headers sources = done ++ h :: todo)
    (ho : placeOf? headers sources h.impl.owner = some o)
    (hd : (typesBefore headers sources)[o]? = some d) {j : Nat}
    (hj : d.Awaits h.impl.name j) (hnot : ¬ d.Declares h.impl j) :
    h.fate = .merged o j ↔
      IsOpen done o d h.impl.name j ∧ ∀ i, IsOpen done o d h.impl.name i → i = j := by
  obtain ⟨types, c, hc, hdecided, hmet⟩ := exists_isMetAs hs hrun hd
  have howner := (find?_directoryFor h.impl.owner).trans ho
  constructor
  · intro hfate
    have hopen : IsOpen done o d h.impl.name j := ⟨hj, forall_ne_of_merged hs hrun hfate⟩
    obtain ⟨m, hm, hname⟩ := hmet.isOpen_iff.mp hopen
    have hindex := matchAmong_of_fateOf_eq_merged (hdecided.symm.trans hfate) howner hc
      (List.mem_of_getElem? hm) hname
    refine ⟨hopen, fun i hi => ?_⟩
    cases hmatch : matchAmong c.methods awaitsBody h.impl with
    | exact i' =>
        obtain rfl : i' = j := by simpa [hmatch, Pairing.index?] using hindex
        exact absurd (hmet.declares_and_isOpen_iff.mpr (matchAmong_eq_exact hmatch)).1 hnot
    | nameOnly i' =>
        obtain rfl : i' = j := by simpa [hmatch, Pairing.index?] using hindex
        obtain ⟨m', hm', hname'⟩ := hmet.isOpen_iff.mp hi
        exact (matchAmong_eq_nameOnly_iff.mp hmatch).2.2 i m' hm' hname'
    | ambiguous => simp [hmatch, Pairing.index?] at hindex
    | absent => simp [hmatch, Pairing.index?] at hindex
  · rintro ⟨hopen, hunique⟩
    have hmatch : matchAmong c.methods awaitsBody h.impl = .nameOnly j := by
      refine matchAmong_eq_nameOnly_iff.mpr ⟨?_, hmet.isOpen_iff.mp hopen, fun i m hm hname =>
        hunique i (hmet.isOpen_iff.mpr ⟨m, hm, hname⟩)⟩
      intro m hm
      rw [← Bool.not_eq_true]
      intro hexact
      obtain ⟨i, hi⟩ := List.mem_iff_getElem?.mp hm
      obtain ⟨hdeclares, hopen'⟩ := hmet.declares_and_isOpen_iff.mpr ⟨m, hi, hexact⟩
      obtain rfl := hunique i hopen'
      exact hnot hdeclares
    rw [hdecided]
    exact fateOf_of_matchAmong howner hc hmatch rfl

/-! ### Who can take a declaration -/

variable (headers sources) in
/-- An implementation of another type that may reach for methods of the type at place `o`: this is
an interface, and the owner of the implementation lists it as a base. -/
def IsRival (o : Nat) (m : Method) : Prop :=
  ∃ r c d, placeOf? headers sources m.owner = some r ∧ r ≠ o ∧
    (typesBefore headers sources)[r]? = some c ∧ (typesBefore headers sources)[o]? = some d ∧
    d.isInterface = true ∧ ∃ base ∈ c.bases, placeOf? headers sources base = some o

/-- Names that stand for the same type are equal. -/
theorem eq_of_placeOf? {a b : Text} (ha : placeOf? headers sources a = some o)
    (hb : placeOf? headers sources b = some o) : a = b := by
  obtain ⟨d, hd, rfl⟩ := exists_type_of_placeOf? ha
  obtain ⟨d', hd', rfl⟩ := exists_type_of_placeOf? hb
  rw [Option.some.inj (hd.symm.trans hd')]

/-- **Who can take a declaration**: an implementation of its name, either of the same type or of a
rival. -/
theorem eq_or_isRival_of_merged (hs : ∀ s ∈ sources, s.HasBodies) {k : Handover} {j : Nat}
    {name : Text} (hk : k ∈ handovers headers sources)
    (hd : (typesBefore headers sources)[o]? = some d) (hj : d.Awaits name j)
    (hfate : k.fate = .merged o j) :
    k.impl.name = name ∧
      (placeOf? headers sources k.impl.owner = some o ∨ IsRival headers sources o k.impl) := by
  obtain ⟨done, todo, hrun⟩ := List.append_of_mem hk
  obtain ⟨r, c, d', m, hr, hc, hd', hm, hname, -, -, hwhere⟩ :=
    exists_declared_of_merged hs hrun hfate
  obtain rfl : d = d' := Option.some.inj (hd.symm.trans hd')
  obtain ⟨m', hm', -, rfl⟩ := hj
  obtain rfl : m = m' := Option.some.inj (hm.symm.trans hm')
  refine ⟨hname.symm, ?_⟩
  by_cases hsame : r = o
  · exact Or.inl (hsame ▸ hr)
  · rcases hwhere with rfl | ⟨hinterface, -, hbase⟩
    · exact absurd rfl hsame
    · exact Or.inr ⟨r, c, d, hr, hsame, hc, hd, hinterface, hbase⟩

/-- If no two implementations have the same owner, name and keys, then no two in the record have. -/
theorem nodup_signature_handovers (headers : List Header)
    (hdistinct : ((sources.flatMap Source.methods).map Method.signature).Nodup) :
    ((handovers headers sources).map fun k => k.impl.signature).Nodup := by
  have hperm := (perm_impl_handovers headers sources).map Method.signature
  rw [List.map_map] at hperm
  exact hperm.nodup_iff.mpr hdistinct

/-- An implementation and one before it differ in owner, name or keys. -/
theorem signature_ne_of_mem
    (hdistinct : ((sources.flatMap Source.methods).map Method.signature).Nodup)
    (hrun : handovers headers sources = done ++ h :: todo) {k : Handover} (hk : k ∈ done) :
    k.impl.signature ≠ h.impl.signature := by
  have hnodup := nodup_signature_handovers headers hdistinct
  rw [hrun, List.map_append, List.map_cons, List.nodup_append] at hnodup
  exact hnodup.2.2 _ (List.mem_map_of_mem hk) _ List.mem_cons_self

/-! ### The order decides -/

/-- An implementation that is outrun completes no exact declaration. The declaration that the
earlier implementations leave is the one that is completed by name alone, and all others are gone at
that turn. -/
theorem not_outrun_of_merged (hs : ∀ s ∈ sources, s.HasBodies)
    (hdistinct : ((sources.flatMap Source.methods).map Method.signature).Nodup)
    (hrun : handovers headers sources = done ++ h :: todo)
    (ho : placeOf? headers sources h.impl.owner = some o)
    (hd : (typesBefore headers sources)[o]? = some d) {j : Nat} (hdeclares : d.Declares h.impl j)
    (hfate : h.fate = .merged o j) : ¬ d.Outrun (done.map Handover.impl) h.impl := by
  rintro ⟨before, thief, after, j', hearlier, howner, hname, hthief, hj', -, hothers⟩
  obtain ⟨early, late, rfl, rfl, hlate⟩ := List.map_eq_append_iff.mp hearlier
  obtain ⟨t, rest, rfl, rfl, -⟩ := List.map_eq_cons_iff.mp hlate
  have hearly : ∀ k ∈ early, k ∈ early ++ t :: rest := fun k hk => List.mem_append_left _ hk
  obtain ⟨hawaits, hopen⟩ := isOpen_of_merged hs hrun hd hdeclares hfate
  obtain rfl : j = j' := by
    by_contra hne
    obtain ⟨m, hm, hsame, hdecl, -⟩ := hothers j hawaits hne
    obtain ⟨k, hk, rfl⟩ := List.mem_map.mp hm
    exact signature_ne_of_mem hdistinct hrun (hearly k hk) (hdecl.signature_eq hdeclares hsame)
  have hgone : ∀ i, IsOpen early o d h.impl.name i → i = j := by
    rintro i ⟨hi, hfree⟩
    by_contra hne
    obtain ⟨m, hm, hsame, hdecl, hunique⟩ := hothers i hi hne
    obtain ⟨k, hk, rfl⟩ := List.mem_map.mp hm
    obtain ⟨first, second, rfl⟩ := List.append_of_mem hk
    have hrunk : handovers headers sources
        = first ++ k :: (second ++ t :: rest ++ h :: todo) := by simp [hrun]
    have hnamek : k.impl.name = h.impl.name := by
      obtain ⟨m, hm, -, hmname⟩ := hi
      obtain ⟨m', hm', -, -, hmname', -⟩ := hdecl
      rw [← hmname', ← hmname, Option.some.inj (hm.symm.trans hm')]
    obtain ⟨i', hdecl', hfate'⟩ := (merged_exactly_iff_open hs hrunk (hsame ▸ ho) hd).mpr
      ⟨i, hdecl, hnamek ▸ hi, fun k' hk' => hfree k' (List.mem_append_left _ hk')⟩
    have hi' := (isOpen_of_merged hs hrunk hd hdecl' hfate').1
    obtain rfl := hunique i' (hnamek ▸ hi') hdecl'
    exact hfree k hk hfate'
  have hrunt : handovers headers sources = early ++ t :: (rest ++ h :: todo) := by simp [hrun]
  have hstolen : t.fate = .merged o j := by
    refine (merged_by_name_iff hs hrunt (howner ▸ ho) hd (hname ▸ hj') (hthief j hj')).mpr ⟨?_, ?_⟩
    · exact ⟨hname ▸ hj', fun k hk => hopen k (hearly k hk)⟩
    · exact fun i hi => hgone i (hname ▸ hi)
  exact hopen t (List.mem_append_right _ List.mem_cons_self) hstolen

/-- Without rivals, a declaration that is taken while another one of its name is open goes to an
implementation of its type that it declares exactly. -/
theorem declares_of_merged_of_isOpen (hs : ∀ s ∈ sources, s.HasBodies) {name : Text}
    (hrival : ∀ m ∈ sources.flatMap Source.methods, m.name = name →
      ¬ IsRival headers sources o m)
    (hrun : handovers headers sources = done ++ todo)
    (hd : (typesBefore headers sources)[o]? = some d) {i j : Nat}
    (hj : IsOpen done o d name j) (hi : d.Awaits name i) {k : Handover} (hk : k ∈ done)
    (hfate : k.fate = .merged o i) :
    placeOf? headers sources k.impl.owner = some o ∧ d.Declares k.impl i := by
  have hmem : k ∈ handovers headers sources := hrun ▸ List.mem_append_left _ hk
  obtain ⟨hname, hplace | his⟩ := eq_or_isRival_of_merged hs hmem hd hi hfate
  · refine ⟨hplace, ?_⟩
    obtain ⟨first, second, rfl⟩ := List.append_of_mem hk
    have hrunk : handovers headers sources = first ++ k :: (second ++ todo) := by simp [hrun]
    by_contra hnot
    obtain ⟨-, hunique⟩ :=
      (merged_by_name_iff hs hrunk hplace hd (hname ▸ hi) hnot).mp hfate
    obtain rfl := hunique j
      ⟨hname ▸ hj.1, fun k' hk' => hj.2 k' (List.mem_append_left _ hk')⟩
    exact hj.2 k hk hfate
  · exact absurd his (hrival k.impl (impl_mem_of_mem_handovers hmem) hname)

/-- Without rivals, when a declaration goes to an implementation by name alone, every other
declaration of the name has been completed by an implementation that it declares exactly. -/
theorem exists_completed_of_merged_by_name (hs : ∀ s ∈ sources, s.HasBodies) {name : Text}
    (hrival : ∀ m ∈ sources.flatMap Source.methods, m.name = name →
      ¬ IsRival headers sources o m)
    (hrun : handovers headers sources = done ++ h :: todo) (hname : h.impl.name = name)
    (ho : placeOf? headers sources h.impl.owner = some o)
    (hd : (typesBefore headers sources)[o]? = some d) {i j : Nat} (hj : d.Awaits name j)
    (hnot : ¬ d.Declares h.impl j) (hfate : h.fate = .merged o j) (hi : d.Awaits name i)
    (hij : i ≠ j) :
    ∃ k ∈ done, k.fate = .merged o i ∧ k.impl.owner = h.impl.owner ∧ d.Declares k.impl i := by
  subst hname
  obtain ⟨hopen, hunique⟩ := (merged_by_name_iff hs hrun ho hd hj hnot).mp hfate
  have hgone : ∃ k ∈ done, k.fate = .merged o i := by
    by_contra hfree
    exact hij (hunique i ⟨hi, fun k hk hfate => hfree ⟨k, hk, hfate⟩⟩)
  obtain ⟨k, hk, hfate⟩ := hgone
  obtain ⟨hplace, hdecl⟩ := declares_of_merged_of_isOpen hs hrival hrun hd hopen hi hk hfate
  exact ⟨k, hk, hfate, eq_of_placeOf? hplace ho, hdecl⟩

/-- Without rivals, an implementation that completes none of its exact declarations is outrun. -/
theorem outrun_of_forall_ne (hs : ∀ s ∈ sources, s.HasBodies)
    (hdistinct : ((sources.flatMap Source.methods).map Method.signature).Nodup)
    (hrival : ∀ m ∈ sources.flatMap Source.methods, m.name = h.impl.name →
      ¬ IsRival headers sources o m)
    (hrun : handovers headers sources = done ++ h :: todo)
    (ho : placeOf? headers sources h.impl.owner = some o)
    (hd : (typesBefore headers sources)[o]? = some d) {j : Nat} (hdeclares : d.Declares h.impl j)
    (hawaits : d.Awaits h.impl.name j)
    (hne : ∀ j, d.Declares h.impl j → h.fate ≠ .merged o j) :
    d.Outrun (done.map Handover.impl) h.impl := by
  have htaken : ∃ t ∈ done, t.fate = .merged o j := by
    by_contra hfree
    obtain ⟨i, hdecl, hfate⟩ := (merged_exactly_iff_open hs hrun ho hd).mpr
      ⟨j, hdeclares, hawaits, fun k hk hfate => hfree ⟨k, hk, hfate⟩⟩
    exact hne i hdecl hfate
  obtain ⟨t, ht, hfate⟩ := htaken
  have hmem : t ∈ handovers headers sources := hrun ▸ List.mem_append_left _ ht
  obtain ⟨hname, hplace | his⟩ := eq_or_isRival_of_merged hs hmem hd hawaits hfate
  · have howner : t.impl.owner = h.impl.owner := eq_of_placeOf? hplace ho
    have hnot : ¬ d.Declares t.impl j := fun hdecl =>
      signature_ne_of_mem hdistinct hrun ht (hdecl.signature_eq hdeclares howner)
    obtain ⟨early, late, rfl⟩ := List.append_of_mem ht
    have hrunt : handovers headers sources = early ++ t :: (late ++ h :: todo) := by simp [hrun]
    have hearly : ∀ k ∈ early, k ∈ early ++ t :: late := fun k hk => List.mem_append_left _ hk
    have hothers := fun i =>
      exists_completed_of_merged_by_name hs hrival hrunt hname hplace hd (i := i) hawaits hnot hfate
    refine ⟨early.map Handover.impl, t.impl, late.map Handover.impl, j, by simp, howner, hname,
      fun i hi hdecl => ?_, hawaits, hdeclares, fun i hi hij => ?_⟩
    · -- A declaration of the thief would have been completed by one with the same signature.
      have hij : i ≠ j := fun hij => hnot (hij ▸ hdecl)
      obtain ⟨k, hk, -, hk', hdecl'⟩ := hothers i hi hij
      exact signature_ne_of_mem hdistinct hrunt hk
        (hdecl'.signature_eq hdecl hk')
    · obtain ⟨k, hk, hfate, hk', hdecl⟩ := hothers i hi hij
      refine ⟨k.impl, List.mem_map_of_mem hk, hk'.trans howner, hdecl, fun i' hi' hdecl' => ?_⟩
      by_cases hij' : i' = j
      · subst hij'
        exact absurd (hdecl'.signature_eq hdeclares (hk'.trans howner))
          (signature_ne_of_mem hdistinct hrun (hearly k hk))
      · obtain ⟨k', hk₁, hfate', hk₂, hdecl''⟩ := hothers i' hi' hij'
        have hsignature := hdecl''.signature_eq hdecl' (hk₂.trans hk'.symm)
        have hmem₁ : k' ∈ handovers headers sources := hrunt ▸ List.mem_append_left _ hk₁
        have hmem₂ : k ∈ handovers headers sources := hrunt ▸ List.mem_append_left _ hk
        obtain rfl : k' = k := List.inj_on_of_nodup_map
          (nodup_signature_handovers headers hdistinct) hmem₁ hmem₂ hsignature
        exact (Fate.merged.inj (hfate'.symm.trans hfate)).2
  · exact absurd his (hrival t.impl (impl_mem_of_mem_handovers hmem) hname)

/-- **Without rivals the order decides**: an implementation that its owner declares exactly
completes such a declaration exactly when it is not outrun. -/
theorem merged_exactly_iff_not_outrun (hs : ∀ s ∈ sources, s.HasBodies)
    (hdistinct : ((sources.flatMap Source.methods).map Method.signature).Nodup)
    (hrival : ∀ m ∈ sources.flatMap Source.methods, m.name = h.impl.name →
      ¬ IsRival headers sources o m)
    (hrun : handovers headers sources = done ++ h :: todo)
    (ho : placeOf? headers sources h.impl.owner = some o)
    (hd : (typesBefore headers sources)[o]? = some d) :
    (∃ j, d.Declares h.impl j ∧ h.fate = .merged o j) ↔
      (∃ j, d.Declares h.impl j ∧ d.Awaits h.impl.name j) ∧
        ¬ d.Outrun (done.map Handover.impl) h.impl := by
  constructor
  · rintro ⟨j, hdeclares, hfate⟩
    exact ⟨⟨j, hdeclares, (isOpen_of_merged hs hrun hd hdeclares hfate).1⟩,
      not_outrun_of_merged hs hdistinct hrun ho hd hdeclares hfate⟩
  · rintro ⟨⟨j, hdeclares, hawaits⟩, hout⟩
    by_contra hnone
    exact hout (outrun_of_forall_ne hs hdistinct hrival hrun ho hd hdeclares hawaits
      fun i hdecl hfate => hnone ⟨i, hdecl, hfate⟩)

/-- Without rivals, and if every implementation of the owner and name is declared exactly, each of
them completes such a declaration, in whatever order they come. -/
theorem merged_exactly_of_forall_declares (hs : ∀ s ∈ sources, s.HasBodies)
    (hdistinct : ((sources.flatMap Source.methods).map Method.signature).Nodup)
    (hrival : ∀ m ∈ sources.flatMap Source.methods, m.name = h.impl.name →
      ¬ IsRival headers sources o m)
    (hh : h ∈ handovers headers sources) (ho : placeOf? headers sources h.impl.owner = some o)
    (hd : (typesBefore headers sources)[o]? = some d)
    (hall : ∀ m ∈ sources.flatMap Source.methods, m.owner = h.impl.owner → m.name = h.impl.name →
      ∃ j, d.Declares m j ∧ d.Awaits h.impl.name j) :
    ∃ j, d.Declares h.impl j ∧ h.fate = .merged o j := by
  obtain ⟨done, todo, hrun⟩ := List.append_of_mem hh
  refine (merged_exactly_iff_not_outrun hs hdistinct hrival hrun ho hd).mpr
    ⟨hall h.impl (impl_mem_of_mem_handovers hh) rfl rfl, ?_⟩
  rintro ⟨before, thief, after, j, hearlier, howner, hname, hthief, -⟩
  have hmem : thief ∈ done.map Handover.impl :=
    hearlier ▸ List.mem_append_right _ List.mem_cons_self
  obtain ⟨t, ht, rfl⟩ := List.mem_map.mp hmem
  have htmem : t ∈ handovers headers sources := hrun ▸ List.mem_append_left _ ht
  obtain ⟨i, hdecl, hi⟩ := hall t.impl (impl_mem_of_mem_handovers htmem) howner hname
  exact hthief i hi hdecl

/-- **When an implementation gets an exact declaration.** If no two implementations share owner,
name and keys, one completes a method that declares it exactly iff such a method, without a body, is
left by those before it. One that is not left went to an implementation of the same name: of the
same owner with other keys, or of a rival. Without rivals this comes down to the order of the
implementations: the declaration is there, and the implementation is not outrun. -/
theorem merged_exactly_iff (hs : ∀ s ∈ sources, s.HasBodies)
    (hdistinct : ((sources.flatMap Source.methods).map Method.signature).Nodup)
    (hrun : handovers headers sources = done ++ h :: todo)
    (ho : placeOf? headers sources h.impl.owner = some o)
    (hd : (typesBefore headers sources)[o]? = some d) :
    ((∃ j, d.Declares h.impl j ∧ h.fate = .merged o j) ↔
      ∃ j, d.Declares h.impl j ∧ d.Awaits h.impl.name j ∧ ∀ k ∈ done, k.fate ≠ .merged o j) ∧
    (∀ j, d.Declares h.impl j → d.Awaits h.impl.name j → ∀ k ∈ done, k.fate = .merged o j →
      k.impl.name = h.impl.name ∧
        (k.impl.owner = h.impl.owner ∧ k.impl.key ≠ h.impl.key ∨
          IsRival headers sources o k.impl)) ∧
    ((∀ m ∈ sources.flatMap Source.methods, m.name = h.impl.name →
        ¬ IsRival headers sources o m) →
      ((∃ j, d.Declares h.impl j ∧ h.fate = .merged o j) ↔
        (∃ j, d.Declares h.impl j ∧ d.Awaits h.impl.name j) ∧
          ¬ d.Outrun (done.map Handover.impl) h.impl)) := by
  refine ⟨merged_exactly_iff_open hs hrun ho hd, fun j _ hj k hk hfate => ?_, fun hrival =>
    merged_exactly_iff_not_outrun hs hdistinct hrival hrun ho hd⟩
  have hmem : k ∈ handovers headers sources := hrun ▸ List.mem_append_left _ hk
  obtain ⟨hname, hplace | his⟩ := eq_or_isRival_of_merged hs hmem hd hj hfate
  · have howner : k.impl.owner = h.impl.owner := eq_of_placeOf? hplace ho
    refine ⟨hname, Or.inl ⟨howner, fun hkey => signature_ne_of_mem hdistinct hrun hk ?_⟩⟩
    rw [Method.signature, Method.signature, howner, hname, hkey]
  · exact ⟨hname, Or.inr his⟩

end

/-- An implementation of `Shape::scale` with one parameter of the given type. -/
def scaleWith (type : Text) : Method where
  name := "scale"
  owner := "Shape"
  targetFile := "Shape"
  parameters := [{ baseType := type, key := type }]
  body := some []

/-- A class that declares `scale` with a parameter of each of the given types. -/
def shapeScaling (types : List Text) : TypeDecl where
  name := "Shape"
  file := "Shape"
  methods := types.map fun t => { name := "scale", parameters := [{ baseType := t, key := t }] }

/-- A header with this class. -/
def scaleHeader (types : List Text) : Header where
  stem := "Shape"
  types := [shapeScaling types]

/-- A source that implements `scale` for each of the given types, in this order. -/
def scaleSource (types : List Text) : Source where
  stem := "Shape"
  methods := types.map scaleWith

/-- With both overloads declared, the one that is implemented second gets its declaration. -/
theorem merged_exactly_scale :
    ∃ done h, handovers [scaleHeader ["int", "double"]] [scaleSource ["double", "int"]]
        = done ++ h :: [] ∧ h.impl = scaleWith "int" ∧
      ∃ j, (shapeScaling ["int", "double"]).Declares h.impl j ∧ h.fate = .merged 0 j := by
  have hs : ∀ s ∈ [scaleSource ["double", "int"]], s.HasBodies := by decide
  have hrun : handovers [scaleHeader ["int", "double"]] [scaleSource ["double", "int"]]
      = [⟨"Shape", scaleWith "double", .merged 0 1⟩]
        ++ ⟨"Shape", scaleWith "int", .merged 0 0⟩ :: [] := by
    decide +kernel
  refine ⟨_, _, hrun, rfl, ?_⟩
  refine (merged_exactly_iff hs (by decide) hrun (by decide +kernel) (by decide +kernel)).1.mpr ?_
  exact ⟨0, ⟨_, rfl, rfl, rfl, rfl, rfl⟩, ⟨_, rfl, rfl, rfl⟩, by decide⟩

/-- An exact declaration can be lost: with `scale(int)` declared and `scale(double)` implemented
before it, the implementation of `scale(int)` completes nothing. -/
theorem not_forall_merged_exactly :
    ¬ ∀ (headers : List Header) (sources : List Source), (∀ s ∈ sources, s.HasBodies) →
      ((sources.flatMap Source.methods).map Method.signature).Nodup →
      ∀ h ∈ handovers headers sources, ∀ o d, placeOf? headers sources h.impl.owner = some o →
        (typesBefore headers sources)[o]? = some d →
        (∃ j, d.Declares h.impl j ∧ d.Awaits h.impl.name j) →
        ∃ j, d.Declares h.impl j ∧ h.fate = .merged o j := by
  intro hall
  have hrun : handovers [scaleHeader ["int"]] [scaleSource ["double", "int"]]
      = [⟨"Shape", scaleWith "double", .merged 0 0⟩,
         ⟨"Shape", scaleWith "int", .kept 0 (scaleWith "int")⟩] := by
    decide +kernel
  have hmem : ⟨"Shape", scaleWith "int", .kept 0 (scaleWith "int")⟩
      ∈ handovers [scaleHeader ["int"]] [scaleSource ["double", "int"]] := by
    rw [hrun]
    exact List.mem_cons_of_mem _ (List.mem_singleton_self _)
  obtain ⟨j, -, hfate⟩ := hall _ _ (by decide) (by decide) _ hmem 0 (shapeScaling ["int"])
    (by decide +kernel) (by decide +kernel)
    ⟨0, ⟨_, rfl, rfl, rfl, rfl, rfl⟩, ⟨_, rfl, rfl, rfl⟩⟩
  cases hfate

end Sharpen
