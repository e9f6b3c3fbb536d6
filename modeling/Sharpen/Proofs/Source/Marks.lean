import Mathlib.Data.List.Basic
import Sharpen.Proofs.Header.Readings
import Sharpen.Proofs.Source.Bodies

/-!
# Marks of Local Functions

A method that is read from a source file is marked if it is a free function. The mark decides where
it is listed, and nothing that a type of the file gets has it: neither the methods that its body
declares nor a constructor that stands behind it.

The mark is given when a definition is taken as a free function and by nothing else, and it is what
divides the methods of a source into two lists. Declarations in headers and in types of a source are
never marked.

## Main definitions

* `Source.IsMarked` — the marks of a source are as they should be.
* `Unmarked` — no type has a method that is marked as a local function.

## Main results

* `isMarked_parseSource` — this is so for every source that is read.
-/

namespace Sharpen

/-- The local functions of a source are marked as such and have bodies, and none of its other
methods is marked. -/
structure Source.IsMarked (s : Source) : Prop where
  methods : ∀ m ∈ s.methods, m.isLocal = false
  locals : ∀ m ∈ s.locals, m.isLocal = true ∧ m.body.isSome = true
  structs : ∀ d ∈ s.structs, ∀ m ∈ d.methods, m.isLocal = false

/-- No type has a method that is marked as a local function. -/
def Unmarked (types : List TypeDecl) : Prop :=
  ∀ d ∈ types, ∀ m ∈ d.methods, m.isLocal = false

/-- A type that is defined in the file brings no mark. -/
theorem unmarked_takeEmbeddedType {path : Text} {page : SourcePage}
    {acc : List TypeDecl × SourceScan} (h : Unmarked acc.1) (m : Nat × Nat) :
    Unmarked (takeEmbeddedType path page acc m).1 := by
  rw [takeEmbeddedType]
  dsimp only
  split
  · exact h
  · split
    · exact h
    · intro d hd
      rcases List.mem_append.mp hd with hd | hd
      · exact h d hd
      · obtain ⟨c, hc, rfl⟩ := List.mem_map.mp hd
        intro k hk
        obtain ⟨l, hl, rfl⟩ := List.mem_map.mp hk
        exact (isDeclaredIn_parseHeader _ _ c hc).methods l hl

/-- Nor does a constructor that stands behind its type. -/
theorem unmarked_takeFreeFunction {page : SourcePage} {found : FoundFunctions}
    (h : Unmarked found.structs) {m : FreeFunction} (hm : m ∈ freeFunction.findAll page.masked) :
    Unmarked (takeFreeFunction page found m).structs := by
  obtain ⟨scan, heq⟩ | ⟨d, -, ⟨i, heq⟩ | heq⟩ := takeFreeFunction_cases found hm
  · exact heq ▸ h
  · rw [heq]
    refine forall_mem_modify h (fun t ht => forall_mem_concat ht ?_) i
    rw [SourceScan.fst_define]
  · exact heq ▸ h

/-- Numbering leaves all marks. -/
theorem unmarked_numberTypes {types : List TypeDecl} (h : Unmarked types) (positions : List Nat)
    (base : Nat) : Unmarked (numberTypes positions base types) := by
  induction types generalizing base with
  | nil => exact h
  | cons d r ih =>
      intro c hc
      rcases List.mem_cons.mp hc with rfl | hc
      · intro m hm
        obtain ⟨i, hi, rfl⟩ := List.mem_mapIdx.mp hm
        exact h d List.mem_cons_self d.methods[i] (List.getElem_mem hi)
      · exact ih (fun c hc => h c (List.mem_cons_of_mem _ hc)) _ c hc

/-- **The marks of every source that is read are as they should be.** -/
theorem isMarked_parseSource (text path : Text) : (parseSource text path).1.IsMarked := by
  have hlocals : ∀ m ∈ (parseSource text path).1.locals, m.isLocal = true := fun m hm =>
    (List.mem_filter.mp hm).2
  have hbodies := hasBodies_parseSource text path
  refine ⟨fun m hm => by simpa using (List.mem_filter.mp hm).2, fun m hm => ?_, ?_⟩
  · exact ⟨hlocals m hm, hbodies m (List.mem_append_right _ hm)⟩
  · rw [parseSource]
    refine unmarked_numberTypes ?_ _ _
    refine List.foldlRecOn (motive := fun found => Unmarked (FoundFunctions.structs found)) _ _ ?_
      fun found h m hm => unmarked_takeFreeFunction h hm
    exact List.foldlRecOn (motive := fun acc : _ × _ => Unmarked acc.1) _ _ (by simp [Unmarked])
      fun acc h m _ => unmarked_takeEmbeddedType h m

end Sharpen
