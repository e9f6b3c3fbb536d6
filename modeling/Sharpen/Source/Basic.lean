import Sharpen.Decl.Basic
import Sharpen.Log

/-!
# Sources

What is read from one source file, and what its reader reports.

Implementations and local functions are kept apart, each with the position and the number it has in
the file. Whose methods a file implements is counted by owner, in the order in which owners come up
first.

## Main definitions

* `Source` holds implementations, local functions, embedded types, static initializers, constants
  and the banner.
* `Source.implementationCount` and `Source.ownerOrder` say whose methods the file implements.
* `SourceNotice` is what the reader of a source file reports.
* `SourceNotice.toRecord` is the record of a report about the source file `stem`.
-/

namespace Sharpen

/-- What one source file contributes. -/
structure Source where
  stem : Text
  /-- The implementations of methods, in textual order. -/
  methods : List Method := []
  /-- The free functions, in textual order. -/
  locals : List Method := []
  /-- The types that are defined in the file. -/
  structs : List TypeDecl := []
  staticInits : List StaticInit := []
  constants : List Constant := []
  banner : List Text := []
deriving DecidableEq, Repr, Inhabited

namespace Source

/-- The number of methods of the type `owner` that the file implements. -/
def implementationCount (s : Source) (owner : Text) : Nat :=
  s.methods.countP (·.owner == owner)

/-- The types whose methods the file implements, in the order of their first implementation. -/
def ownerOrder (s : Source) : List Text :=
  ((s.methods.map Method.owner).filter fun o => !o.isEmpty).eraseDups

end Source

/-- What the reader of a source file reports. -/
inductive SourceNotice where
  | unterminatedBody (line : Nat)
  | ownerlessSkipped (name : Text)
deriving DecidableEq, Repr

/-- The record of a report about the source file `stem`. -/
def SourceNotice.toRecord (stem : Text) : SourceNotice → Record
  | unterminatedBody n =>
    ⟨.warning, "parsing.source", stem ++ ": unterminated body at line " ++ Text.ofNat n⟩
  | ownerlessSkipped name =>
    ⟨.debug, "parsing.source", stem ++ ": ownerless constructor-shaped " ++ name ++ " skipped"⟩

end Sharpen
