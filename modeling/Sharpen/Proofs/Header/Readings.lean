import Mathlib.Data.List.Basic
import Sharpen.Proofs.Header.Growth

/-!
# What Every Type of a Header Has

A type is opened with the name of its header and keeps it, and all its methods are declarations that
stand in its body. No step of the reading changes this, so it holds of every type of every header.

This is an instance of the general statement on how types grow. The property names the file and the
place of each method, and each kind of addition is shown to keep it. What later modules need of a
header that was read, and not of any header, is mostly this.

## Main definitions

* `TypeDecl.IsDeclaredIn` — what a type of a header has.

## Main results

* `Page.keeps_isDeclaredIn` — an open type has it, and keeps it as it grows.
* `isDeclaredIn_parseHeader` — all types of a header have it, for all texts.
-/

namespace Sharpen

/-- A type that the header `stem` declares: it is of this header, and none of its methods is a local
function. -/
structure TypeDecl.IsDeclaredIn (stem : Text) (d : TypeDecl) : Prop where
  file : d.file = stem
  methods : ∀ m ∈ d.methods, m.isLocal = false

/-- **The types of a page are declared in it**, from their heads on. -/
theorem Page.keeps_isDeclaredIn (page : Page) :
    page.Keeps fun _ o => o.decl.IsDeclaredIn page.stem where
  opens _ _ := ⟨rfl, fun _ hm => absurd hm List.not_mem_nil⟩
  stays h _ := h
  grows h _ hgrows := by
    cases hgrows with
    | label | regionStart | constant | member => exact ⟨h.file, h.methods⟩
    | regionEnd =>
        obtain ⟨methods, members, heq, hmethods, -⟩ :=
          OpenType.endRegion_eq _ (regionComment false _)
        rw [heq]
        exact ⟨h.file, hmethods h.methods fun _ hm => hm⟩
    | method _ _ _ hread =>
        exact ⟨h.file, forall_mem_concat h.methods (untouched_methodDecl hread).2.1⟩

/-- **All types of a header are types that it declares**, for all texts. -/
theorem isDeclaredIn_parseHeader (text path : Text) :
    ∀ d ∈ (parseHeader text path).1.types, d.IsDeclaredIn (parseHeader text path).1.stem := by
  have hstem : (parseHeader text path).1.stem = (Page.ofText text path).stem := by
    rw [parseHeader, readHeader]
    dsimp only
    split
    · rfl
    · split <;> rfl
  intro d hd
  obtain ⟨pos, o, name, constants, ho, -, rfl⟩ :=
    (Page.ofText text path).keeps_isDeclaredIn.forall_types d hd
  rw [hstem]
  refine ⟨ho.file, fun m hm => ?_⟩
  obtain ⟨k, hk, rfl⟩ := List.mem_map.mp hm
  exact ho.methods k hk

end Sharpen
