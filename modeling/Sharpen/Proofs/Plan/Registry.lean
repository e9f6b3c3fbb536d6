import Mathlib.Data.List.Induction
import Mathlib.Data.List.Nodup
import Sharpen.Plan.Reconcile

/-!
# What Names Stand For

The registry is filled by passing over all types once. Read as a map, it sends a name to the place
of the first type that has it; read as a list, it holds each such place exactly once.

The two views are used for different things. Handing out looks up owners by name and needs the map;
laying out goes through the names and needs the list. Both are proved by induction on the types,
with the position of the next one as a parameter.

## Main results

* `Registry.find?_ofTypes` — the map: a name stands for the first type that has it.
* `Registry.mem_entries_ofTypes`, `Registry.nodup_names_ofTypes` — the list: its entries are the
  names with what they stand for, and no name occurs twice.
-/

namespace Sharpen

/-- A type is the first of its name iff no type before it has the name. -/
theorem findIdx?_name_eq_length_iff {l r : List TypeDecl} {d : TypeDecl} :
    (l ++ d :: r).findIdx? (·.name == d.name) = some l.length ↔ ∀ c ∈ l, c.name ≠ d.name := by
  rw [List.findIdx?_append]
  cases hfind : l.findIdx? (·.name == d.name) with
  | none => simpa [List.findIdx?_cons] using List.findIdx?_eq_none_iff.mp hfind
  | some i =>
      obtain ⟨hlt, hname, -⟩ := List.findIdx?_eq_some_iff_getElem.mp hfind
      refine ⟨fun h => ?_, fun h => ?_⟩
      · rw [Option.some_or, Option.some.injEq] at h
        omega
      · exact absurd (by simpa using hname) (h _ (List.getElem_mem hlt))

namespace Registry

/-- All types up to the last one are registered before it. -/
theorem ofTypes_append_singleton (types : List TypeDecl) (d : TypeDecl) :
    ofTypes (types ++ [d]) = (ofTypes types).register (d, types.length) := by
  simp [ofTypes, List.zipIdx_append]

/-- The first place of a name in a list with one more type. -/
theorem findIdx?_append_singleton (types : List TypeDecl) (d : TypeDecl) (name : Text) :
    (types ++ [d]).findIdx? (·.name == name)
      = (types.findIdx? (·.name == name)).or
          (if d.name = name then some types.length else none) := by
  rw [List.findIdx?_append]
  by_cases hname : d.name = name <;> simp [hname]

/-- Registering a type gives it its name, unless the name is taken. -/
theorem find?_register (r : Registry) (d : TypeDecl) (i : Nat) (name : Text) :
    (r.register (d, i)).find? name
      = (r.find? name).or (if d.name = name then some i else none) := by
  rw [register]
  split
  · -- The name is taken, so looking it up never gets past the entries there are.
    rename_i htaken
    by_cases hname : d.name = name
    · obtain ⟨j, hj⟩ := Option.isSome_iff_exists.mp htaken
      have hj' : r.find? name = some j := hname ▸ hj
      rw [hj', Option.some_or]
      exact hj'
    · rw [if_neg hname, Option.or_none]
      rfl
  · simp only [find?, List.find?_append]
    cases hold : r.entries.find? (·.1 == name) with
    | some e => simp
    | none => by_cases hname : d.name = name <;> simp [hname]

/-- **A name stands for the first type that has it.** -/
theorem find?_ofTypes (types : List TypeDecl) (name : Text) :
    (ofTypes types).find? name = types.findIdx? (·.name == name) := by
  induction types using List.reverseRecOn with
  | nil => rfl
  | append_singleton l d ih =>
      rw [ofTypes_append_singleton, find?_register, findIdx?_append_singleton, ih]

/-- **The entries are the names with what they stand for.** -/
theorem mem_entries_ofTypes (types : List TypeDecl) (e : Text × Nat) :
    e ∈ (ofTypes types).entries ↔ types.findIdx? (·.name == e.1) = some e.2 := by
  induction types using List.reverseRecOn with
  | nil => simp [ofTypes]
  | append_singleton l d ih =>
      rw [ofTypes_append_singleton, findIdx?_append_singleton, register, find?_ofTypes]
      cases htaken : l.findIdx? (·.name == d.name) with
      | some j =>
          simp only [Option.isSome_some, if_true, ih]
          by_cases hname : d.name = e.1
          · rw [← hname, htaken, Option.some_or]
          · rw [if_neg hname, Option.or_none]
      | none =>
          simp only [Option.isSome_none, Bool.false_eq_true, if_false, List.mem_append,
            List.mem_singleton, ih]
          by_cases hname : d.name = e.1
          · rw [← hname, htaken]
            simp [Prod.ext_iff, ← hname, eq_comm]
          · have hne : e ≠ (d.name, l.length) := fun h => hname (by rw [h])
            rw [if_neg hname, Option.or_none]
            simp [hne]

/-- **No name is registered twice.** -/
theorem nodup_names_ofTypes (types : List TypeDecl) :
    ((ofTypes types).entries.map Prod.fst).Nodup := by
  induction types using List.reverseRecOn with
  | nil => simp [ofTypes]
  | append_singleton l d ih =>
      rw [ofTypes_append_singleton, register]
      split
      · exact ih
      · rename_i hfree
        rw [List.map_append]
        refine List.nodup_append.mpr ⟨ih, List.nodup_singleton _, ?_⟩
        rintro n hn m hm rfl
        obtain ⟨e, he, rfl⟩ := List.mem_map.mp hn
        have hname : e.1 = d.name := by simpa using hm
        rw [mem_entries_ofTypes, ← find?_ofTypes, hname] at he
        exact hfree (by rw [he]; rfl)

end Registry

end Sharpen
