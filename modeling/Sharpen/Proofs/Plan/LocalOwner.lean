import Mathlib.Data.List.Basic
import Sharpen.Proofs.Plan.Shown

/-!
# The Owner of Free Functions

The free functions of a source are handed to one type: to the one that the source implements most
of, or else to the one that takes the constants of the header of the same name. The first choice
leaves interfaces out. The second one does not, nor does it look whether the name of the type has
been taken, so it can fall on a type that no file shows.

Which types are shown is decided by their names: a name stands for the first type that has it, so
that a type of a header whose name was taken before has no file. The first choice goes through names
and cannot fall on such a type. The second one goes through the types of one header, and there it
can fall on an interface or on a type whose name stands for another.

## Main definitions

* `Source.LosesLocals`, `losesLocals_iff` — when the functions of a source go to a type that is not
  shown.
* `ownerPlace?` — the place of the type that gets the local functions of a source.
* `namedPlace?` — the place of the type that a source implements most of, interfaces left out.
* `Source.shownOwner?` — the type that gets the local functions of a source, as it was read, if its
  methods are shown.

## Main results

* `mem_shownPlaces_of_namedPlace?` — the first choice always falls on a type that is shown.
* `mem_shownPlaces_constantOwner` — when the second one does.
-/

namespace Sharpen

/-! ### The two choices -/

/-- No name that looks like an interface's is chosen. -/
theorem looksLikeInterface_of_localOwner? {count : Text → Int} {order interfaces : List Text}
    {owner : Text} (h : localOwner? count order interfaces = some owner) :
    looksLikeInterface owner interfaces = false := by
  have hall : ∀ o, (order.foldl (betterOwner count interfaces) (none, 0)).1 = some o →
      looksLikeInterface o interfaces = false := by
    refine List.foldlRecOn (motive := fun best : Option Text × Int => ∀ o, best.1 = some o →
      looksLikeInterface o interfaces = false) _ _ (by simp) fun best hbest name _ o ho => ?_
    rw [betterOwner] at ho
    split at ho
    · rename_i hbetter
      obtain rfl := Option.some.inj ho
      rw [Bool.and_eq_true, Bool.not_eq_true'] at hbetter
      exact hbetter.1
    · exact hbest o ho
  exact hall owner h

/-- A header is placed behind all types of the headers before it. -/
theorem find?_placeHeaders {stem : Text} {place : Nat} {l : List Header} {p : PlacedHeader}
    (h : (placeHeaders place l).find? (·.header.stem == stem) = some p) :
    ∃ before after, l = before ++ p.header :: after ∧ (∀ g ∈ before, g.stem ≠ stem) ∧
      p.header.stem = stem ∧ p.place = place + (before.flatMap Header.types).length := by
  induction l generalizing place with
  | nil => cases h
  | cons g r ih =>
      rw [placeHeaders, List.find?_cons] at h
      split at h
      · rename_i hstem
        obtain rfl := Option.some.inj h
        exact ⟨[], r, rfl, by simp, by simpa using hstem, rfl⟩
      · rename_i hstem
        obtain ⟨before, after, rfl, hbefore, hp, hplace⟩ := ih h
        refine ⟨g :: before, after, rfl, ?_, hp, ?_⟩
        · intro k hk
          rcases List.mem_cons.mp hk with rfl | hk
          · simpa using hstem
          · exact hbefore k hk
        · rw [hplace, List.flatMap_cons, List.length_append]
          omega

/-- The first header of a name is found. -/
theorem find?_placeHeaders_append {stem : Text} {place : Nat} {before after : List Header}
    {h : Header} (hbefore : ∀ g ∈ before, g.stem ≠ stem) (hstem : h.stem = stem) :
    (placeHeaders place (before ++ h :: after)).find? (·.header.stem == stem)
      = some ⟨h, place + (before.flatMap Header.types).length⟩ := by
  induction before generalizing place with
  | nil =>
      rw [List.nil_append, placeHeaders, List.find?_cons_of_pos (by simpa using hstem)]
      rfl
  | cons g r ih =>
      have hg := hbefore g List.mem_cons_self
      rw [List.cons_append, placeHeaders, List.find?_cons_of_neg (by simpa using hg),
        ih fun k hk => hbefore k (List.mem_cons_of_mem _ hk), List.flatMap_cons, List.length_append,
        Nat.add_assoc]

/-- The owner of constants is one of the types. -/
theorem lt_length_of_constantOwner? {types : List TypeDecl} {stem : Text} {k : Nat}
    (h : constantOwner? types stem = some k) : k < types.length := by
  rw [constantOwner?] at h
  split at h
  · rename_i i hi
    obtain rfl := Option.some.inj h
    exact (List.findIdx?_eq_some_iff_getElem.mp hi).1
  · split at h
    · exact (List.findIdx?_eq_some_iff_getElem.mp h).1
    · exact (List.findIdx?_eq_some_iff_getElem.mp h).1

section

variable (headers : List Header) (sources : List Source)

/-- The place of the type that gets the local functions of a source. -/
def ownerPlace? (s : Source) : Option Nat :=
  ownerOfLocals (directoryFor headers sources).registry (directoryFor headers sources).headers
    (directoryFor headers sources).interfaces s

/-- The place of the type that a source implements most of, interfaces left out. -/
def namedPlace? (s : Source) : Option Nat :=
  (localOwner? (fun o => s.implementationCount o) s.ownerOrder
    (directoryFor headers sources).interfaces).bind (placeOf? headers sources)

variable {headers sources}

/-- **The type that a source implements most of is always shown.** The names of interfaces are
known, and none of them is chosen. -/
theorem mem_shownPlaces_of_namedPlace? {s : Source} {i : Nat}
    (h : namedPlace? headers sources s = some i) : i ∈ shownPlaces headers sources := by
  obtain ⟨name, hname, hplace⟩ := Option.bind_eq_some_iff.mp h
  obtain ⟨d, hd, rfl⟩ := exists_type_of_placeOf? hplace
  refine (mem_shownPlaces_iff hd).mpr (Or.inr ⟨hplace, ?_⟩)
  by_contra hinterface
  have hknown : d.name ∈ (directoryFor headers sources).interfaces := by
    refine List.mem_map.mpr ⟨(d.name, i), List.mem_filter.mpr ⟨?_, ?_⟩, rfl⟩
    · exact (Registry.mem_entries_ofTypes _ _).mpr hplace
    · simpa [hd] using hinterface
  have hlooks := looksLikeInterface_of_localOwner? hname
  rw [looksLikeInterface, List.contains_iff_mem.mpr hknown] at hlooks
  cases hlooks

/-! ### Owners that are not shown -/

variable (headers sources) in
/-- **When the local functions of a source are lost**: the source implements no type that could get
them, and the type that takes the constants of the first header of the same name is an interface, or
a type before it has its name. -/
structure Source.LosesLocals (s : Source) : Prop where
  unnamed : namedPlace? headers sources s = none
  hidden : ∃ before h after k d, headerOrder headers = before ++ h :: after ∧
    (∀ g ∈ before, g.stem ≠ s.stem) ∧ h.stem = s.stem ∧
    constantOwner? h.types h.stem = some k ∧ h.types[k]? = some d ∧
    (d.isInterface = true ∨ ∃ c ∈ before.flatMap Header.types ++ h.types.take k, c.name = d.name)

variable (sources) in
/-- All types, around one that a header declares. -/
theorem exists_typesBefore_eq {before after : List Header} {h : Header} {k : Nat} {d : TypeDecl}
    (hheaders : headerOrder headers = before ++ h :: after) (hd : h.types[k]? = some d) :
    ∃ rest, typesBefore headers sources
      = before.flatMap Header.types ++ h.types.take k ++ d :: rest := by
  obtain ⟨hlt, rfl⟩ := List.getElem?_eq_some_iff.mp hd
  refine ⟨h.types.drop (k + 1) ++ after.flatMap Header.types
    ++ (sourceOrderByStem sources).flatMap Source.structs, ?_⟩
  have htypes : h.types.take k ++ h.types[k] :: h.types.drop (k + 1) = h.types := by
    rw [← List.drop_eq_getElem_cons hlt, List.take_append_drop]
  calc typesBefore headers sources
      = before.flatMap Header.types
          ++ ((h.types.take k ++ h.types[k] :: h.types.drop (k + 1)) ++ after.flatMap Header.types)
          ++ (sourceOrderByStem sources).flatMap Source.structs := by
        rw [htypes, typesBefore, hheaders, List.flatMap_append, List.flatMap_cons]
    _ = _ := by simp only [List.append_assoc, List.cons_append]

variable (sources) in
/-- **Whether the type that takes the constants of a header is shown.** -/
theorem mem_shownPlaces_constantOwner {before after : List Header} {h : Header} {k : Nat}
    {d : TypeDecl} (hheaders : headerOrder headers = before ++ h :: after)
    (hd : h.types[k]? = some d) :
    (before.flatMap Header.types).length + k ∈ shownPlaces headers sources ↔
      d.isInterface = false ∧
        ∀ c ∈ before.flatMap Header.types ++ h.types.take k, c.name ≠ d.name := by
  have hlt : k < h.types.length := (List.getElem?_eq_some_iff.mp hd).1
  obtain ⟨rest, hrest⟩ := exists_typesBefore_eq sources hheaders hd
  have hlength : (before.flatMap Header.types ++ h.types.take k).length
      = (before.flatMap Header.types).length + k := by
    rw [List.length_append, List.length_take_of_le (Nat.le_of_lt hlt)]
  have hplace : (typesBefore headers sources)[(before.flatMap Header.types).length + k]?
      = some d := by
    rw [hrest, ← hlength, List.getElem?_append_right (Nat.le_refl _), Nat.sub_self,
      List.getElem?_cons_zero]
  have hcount : ¬ headerCount headers ≤ (before.flatMap Header.types).length + k := by
    rw [headerCount, hheaders, List.flatMap_append, List.flatMap_cons, List.length_append,
      List.length_append]
    omega
  rw [mem_shownPlaces_iff hplace, or_iff_right hcount, placeOf?, hrest, ← hlength,
    findIdx?_name_eq_length_iff, and_comm]

variable (headers sources) in
/-- The type that gets the local functions of a source, as it was read, if its methods are shown. -/
def Source.shownOwner? (s : Source) : Option TypeDecl :=
  (ownerPlace? headers sources s).bind fun i =>
    if i ∈ shownPlaces headers sources then (typesBefore headers sources)[i]? else none

/-- Where the local functions of a source go, first choice first. -/
theorem ownerPlace?_eq (s : Source) :
    ownerPlace? headers sources s
      = (namedPlace? headers sources s).or
          (((placeHeaders 0 (headerOrder headers)).find? (·.header.stem == s.stem)).bind fun h =>
            (constantOwner? h.header.types h.header.stem).map (· + h.place)) := by
  have hfind : (directoryFor headers sources).registry.find? = placeOf? headers sources :=
    funext find?_directoryFor
  rw [ownerPlace?, ownerOfLocals, namedPlace?, hfind]
  cases (localOwner? (fun o => s.implementationCount o) s.ownerOrder
    (directoryFor headers sources).interfaces).bind (placeOf? headers sources) with
  | none => rfl
  | some i => rfl

/-- The owner of a source is shown iff its place is. -/
theorem shownOwner?_eq_none_iff {s : Source} {i : Nat}
    (howner : ownerPlace? headers sources s = some i) :
    s.shownOwner? headers sources = none ↔ i ∉ shownPlaces headers sources := by
  rw [Source.shownOwner?, howner, Option.bind_some]
  split
  · rename_i hi
    obtain ⟨d, hd⟩ := exists_type_of_mem_shownPlaces hi
    simp [hd, hi]
  · rename_i hi
    simp [hi]

/-- **The local functions of a source are lost** exactly if it has an owner that is not shown. -/
theorem losesLocals_iff {s : Source} :
    s.LosesLocals headers sources ↔
      ownerPlace? headers sources s ≠ none ∧ s.shownOwner? headers sources = none := by
  constructor
  · rintro ⟨hunnamed, before, h, after, k, d, hheaders, hbefore, hstem, hk, hd, hhidden⟩
    have howner : ownerPlace? headers sources s
        = some ((before.flatMap Header.types).length + k) := by
      rw [ownerPlace?_eq, hunnamed, Option.none_or, hheaders,
        find?_placeHeaders_append hbefore hstem, Option.bind_some, hk, Option.map_some,
        Nat.zero_add, Nat.add_comm]
    refine ⟨by simp [howner], (shownOwner?_eq_none_iff howner).mpr ?_⟩
    rw [mem_shownPlaces_constantOwner sources hheaders hd]
    rintro ⟨hclass, hfirst⟩
    rcases hhidden with hinterface | ⟨c, hc, hname⟩
    · exact absurd hinterface (by simp [hclass])
    · exact hfirst c hc hname
  · rintro ⟨hsome, hnone⟩
    obtain ⟨i, howner⟩ := Option.ne_none_iff_exists'.mp hsome
    have hi := (shownOwner?_eq_none_iff howner).mp hnone
    have hunnamed : namedPlace? headers sources s = none := by
      cases hnamed : namedPlace? headers sources s with
      | none => rfl
      | some j =>
          rw [ownerPlace?_eq, hnamed, Option.some_or, Option.some.injEq] at howner
          exact absurd (howner ▸ mem_shownPlaces_of_namedPlace? hnamed) hi
    rw [ownerPlace?_eq, hunnamed, Option.none_or] at howner
    obtain ⟨p, hp, hplace⟩ := Option.bind_eq_some_iff.mp howner
    obtain ⟨k, hk, rfl⟩ := Option.map_eq_some_iff.mp hplace
    obtain ⟨before, after, hheaders, hbefore, hstem, hlength⟩ := find?_placeHeaders hp
    obtain ⟨d, hd⟩ : ∃ d, p.header.types[k]? = some d :=
      ⟨_, List.getElem?_eq_getElem (lt_length_of_constantOwner? hk)⟩
    refine ⟨hunnamed, before, p.header, after, k, d, hheaders, hbefore, hstem, hk, hd, ?_⟩
    rw [hlength, Nat.zero_add, Nat.add_comm, mem_shownPlaces_constantOwner sources hheaders hd,
      not_and] at hi
    by_cases hinterface : d.isInterface = true
    · exact Or.inl hinterface
    · have hnot := hi (by simpa using hinterface)
      exact Or.inr (by simpa only [not_forall, exists_prop, ne_eq, not_not] using hnot)

end

end Sharpen
