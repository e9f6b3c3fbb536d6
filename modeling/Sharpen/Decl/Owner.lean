import Sharpen.Decl.Basic

/-!
# Owners for what has none

Constants and free functions stand outside all types, and C# has no such place for them. These rules
pick the type that takes them in.

For the constants of a header it is the type called like the file, or the only type, or the first
class; structs are never asked. For the functions of a source it is the type that the source
implements most of, of several the first, and types that look like interfaces do not count.

## Main definitions

* `constantOwner?` picks the type for the constants of a header.
* `localOwner?` picks the type for the functions and constants of a source file.
* `isInterfaceName` says whether a name has the form of an interface's: an `I` and then an ASCII
  capital.
* `looksLikeInterface` says whether a name is that of a known interface or looks like one.
-/

namespace Sharpen

/-- The index of the type that takes in the constants of the header `stem`: the one named after
the file, else the only one that is no struct, else the first class. Structs take none. -/
def constantOwner? (types : List TypeDecl) (stem : Text) : Option Nat :=
  let candidate (d : TypeDecl) : Bool := d.kind != .structType
  match types.findIdx? fun d => candidate d && d.name == stem with
  | some i => some i
  | none =>
    if types.countP candidate == 1 then types.findIdx? candidate
    else types.findIdx? fun d => d.kind == .classType

/-- Whether a name has the form of an interface's: an `I` and then an ASCII capital. -/
def isInterfaceName : Text → Bool
  | 'I' :: c :: _ => c.isUpper
  | _ => false

/-- Whether a name is that of a known interface or looks like one. -/
def looksLikeInterface (name : Text) (interfaces : List Text) : Bool :=
  interfaces.contains name || isInterfaceName name

/-- The better of two owners: the later one only if it has more implementations. -/
def betterOwner (count : Text → Int) (interfaces : List Text) (best : Option Text × Int)
    (owner : Text) : Option Text × Int :=
  if !looksLikeInterface owner interfaces && best.2 < count owner then (some owner, count owner)
  else best

/-- The type with most implementations in a source file; of several the first in textual order.
Interfaces are never picked. -/
def localOwner? (count : Text → Int) (order : List Text) (interfaces : List Text) : Option Text :=
  (order.foldl (betterOwner count interfaces) (none, 0)).1

end Sharpen
