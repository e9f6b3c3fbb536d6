import Sharpen.Plan.Texts
import Sharpen.Proofs.Source.Readings

/-!
# Sources Bring Bodies

Whatever a source file holds, every implementation and every local function that is read from it has
a body: reading one gives it its body at once, and nothing that is done to it later takes the body
away.

This is an instance of what holds of every definition that is read: it has a body, and neither
numbers nor markers nor becoming a local function changes that. The accounts of a whole run ask for
it, since a method with a body does not wait for another one.

## Main definitions

* `Source.HasBodies` — all methods of a source have bodies.
* `HaveBodies` — whether all methods of a list have bodies.

## Main results

* `hasBodies_parseSource`, `hasBodies_readTexts` — this is so for every source that is read.
-/

namespace Sharpen

/-- Whether all methods of a list have bodies. -/
def HaveBodies (methods : List Method) : Prop :=
  ∀ m ∈ methods, m.body.isSome = true

/-- Whether all methods of a source have bodies. -/
def Source.HasBodies (s : Source) : Prop :=
  HaveBodies (s.methods ++ s.locals)

instance (methods : List Method) : Decidable (HaveBodies methods) :=
  inferInstanceAs (Decidable (∀ m ∈ methods, m.body.isSome = true))

instance (s : Source) : Decidable s.HasBodies :=
  inferInstanceAs (Decidable (HaveBodies (s.methods ++ s.locals)))

namespace HaveBodies

variable {l r : List Method}

/-- There is nothing without a body in an empty list. -/
theorem nil : HaveBodies [] := fun _ hm => absurd hm List.not_mem_nil

/-- Lists with bodies may be joined. -/
theorem append (hl : HaveBodies l) (hr : HaveBodies r) : HaveBodies (l ++ r) :=
  fun m hm => (List.mem_append.mp hm).elim (hl m) (hr m)

/-- One more method with a body. -/
theorem concat {m : Method} (hl : HaveBodies l) (hm : m.body.isSome = true) :
    HaveBodies (l ++ [m]) :=
  hl.append fun _ hk => List.mem_singleton.mp hk ▸ hm

/-- Methods among others that have bodies. -/
theorem subset (hl : HaveBodies l) (hsub : ∀ m ∈ r, m ∈ l) : HaveBodies r :=
  fun m hm => hl m (hsub m hm)

end HaveBodies

/-- **Every source that is read brings bodies.** -/
theorem hasBodies_parseSource (text path : Text) : (parseSource text path).1.HasBodies := by
  refine forall_mem_parseSource ⟨?_, ?_, ?_, ?_, ?_⟩
  · exact fun _ _ _ => rfl
  · exact fun _ h => h
  · exact fun _ _ h => h
  · exact fun _ _ _ h => h
  · exact fun _ _ _ h => h

/-- So do all sources of a plan that is made from texts. -/
theorem hasBodies_readTexts (texts : List NamedText) :
    ∀ s ∈ (readTexts parseSource texts).1, s.HasBodies := by
  induction texts with
  | nil => exact fun _ hs => absurd hs List.not_mem_nil
  | cons t r ih =>
      intro s hs
      rcases List.mem_cons.mp hs with rfl | hs
      · exact hasBodies_parseSource t.2 t.1
      · exact ih s hs

end Sharpen
