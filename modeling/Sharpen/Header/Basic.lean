import Sharpen.Decl.Basic
import Sharpen.Log

/-!
# Headers

What is read from one header file, and what its reader reports.

A report says what was passed over and why: a type without a closing brace, a declaration that is
not supported, a statement that nothing was made of. It is a warning if something was lost that had
been meant, and else it is only of use for looking into a run. Reports are values with the data they
are about, and get their wording when they become records.

## Main definitions

* `Header` holds the types, the constants outside them and the banner.
* `HeaderNotice` lists the reports; `HeaderNotice.toRecord` gives their wording.
* `HeaderNotice.level` says how serious a report is.
-/

namespace Sharpen

/-- What one header file declares. -/
structure Header where
  stem : Text
  types : List TypeDecl := []
  /-- The constants outside types. -/
  constants : List Constant := []
  banner : List Text := []
deriving DecidableEq, Repr, Inhabited

/-- What the reader of a header reports. -/
inductive HeaderNotice where
  | missingBrace (type : Text)
  | anonymousType
  | unownedConstants (count : Nat)
  | blockSkipped (line : Nat)
  | nestedTypeSkipped (line : Nat)
  | macroSkipped (line : Text)
  | directiveIgnored (line : Text)
  | constructDropped (type line : Text)
  | memberDropped (type code : Text)
  | unbalancedDropped (declaration : Text)
  | operatorSkipped (declaration : Text)
  | namelessDropped (declaration : Text)
  | macroLikeSkipped (declaration : Text)
deriving DecidableEq, Repr

namespace HeaderNotice

/-- How serious a report is. -/
def level : HeaderNotice → Level
  | missingBrace _ | anonymousType | constructDropped _ _ | memberDropped _ _
  | unbalancedDropped _ | namelessDropped _ => .warning
  | _ => .debug

/-- The wording of a report, after the name of the file. -/
def wording : HeaderNotice → Text
  | missingBrace type => "type " ++ type ++ " is missing its closing brace"
  | anonymousType => "dropping anonymous type without a name"
  | unownedConstants n => "no type can own " ++ Text.ofNat n ++ " define(s)"
  | blockSkipped n => "skipping block at line " ++ Text.ofNat n
  | nestedTypeSkipped n => "skipping nested type at line " ++ Text.ofNat n
  | macroSkipped line => "macro skipped: " ++ line
  | directiveIgnored line => "ignoring directive " ++ line
  | constructDropped type line => "unparseable construct in " ++ type ++ " dropped: " ++ line
  | memberDropped type code => "unparseable member in " ++ type ++ " dropped: " ++ code
  | unbalancedDropped d => "unbalanced declaration dropped: " ++ d
  | operatorSkipped d => "operator overload skipped: " ++ d
  | namelessDropped d => "cannot find method name in: " ++ d
  | macroLikeSkipped d => "macro-like line skipped: " ++ d

/-- The record of a report about the header `stem`. -/
def toRecord (stem : Text) (n : HeaderNotice) : Record :=
  ⟨n.level, "parsing.header", stem ++ ": " ++ n.wording⟩

end HeaderNotice

end Sharpen
