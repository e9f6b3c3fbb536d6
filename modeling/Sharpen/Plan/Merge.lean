import Sharpen.Decl.Basic

/-!
# Declarations and implementations

An implementation is paired with a declaration of the same name, and the declaration then takes over
what the implementation knows better: its body, its parameter names and where it is.

Which declarations may be candidates is up to the caller. Of a merged parameter the type and the
default value are those of the declaration, and name and comments those of the implementation if it
has any. The body, the place in the source file and what stands around it there come from the
implementation.

## Main definitions

* `matchDeclaration` pairs; equal parameter keys win, and a single candidate of the same name will
  do without.
* `Method.merge` joins a declaration with its implementation, `mergeParameters` their parameters.
* `Pairing` says how an implementation fits a list of declarations; a declaration is given by its
  index.
* `matchAmong` finds the declaration among those methods of a list that can be candidates.
* `Parameter.merge` is a parameter that both sides have: the declaration decides its type and
  default value, the implementation its layout, and its name and comments if it has any.
-/

namespace Sharpen

/-! ### Pairing -/

/-- How an implementation fits a list of declarations; a declaration is given by its index. -/
inductive Pairing where
  /-- Name and parameter keys agree. -/
  | exact (index : Nat)
  /-- It is the only declaration of the name. -/
  | nameOnly (index : Nat)
  /-- Several declarations have the name and none the keys. -/
  | ambiguous
  /-- No declaration has the name. -/
  | absent
deriving DecidableEq, Repr

/-- The declaration that was found. -/
def Pairing.index? : Pairing → Option Nat
  | .exact i | .nameOnly i => some i
  | .ambiguous | .absent => none

/-- The same pairing with its index replaced. -/
def Pairing.reindex (f : Nat → Nat) : Pairing → Pairing
  | .exact i => .exact (f i)
  | .nameOnly i => .nameOnly (f i)
  | .ambiguous => .ambiguous
  | .absent => .absent

/-- Finds the declaration that an implementation belongs to. -/
def matchDeclaration (candidates : List Method) (impl : Method) : Pairing :=
  match candidates.findIdx? fun c => c.name == impl.name && c.key == impl.key with
  | some i => .exact i
  | none =>
    match candidates.findIdx? fun c => c.name == impl.name with
    | none => .absent
    | some i =>
      if candidates.countP (fun c => c.name == impl.name) == 1 then .nameOnly i else .ambiguous

/-- Finds the declaration among those methods of a list that can be candidates. The index is one
into the whole list. -/
def matchAmong (methods : List Method) (isCandidate : Method → Bool) (impl : Method) : Pairing :=
  let candidates := methods.zipIdx.filter fun p => isCandidate p.1
  (matchDeclaration (candidates.map Prod.fst) impl).reindex fun i =>
    (candidates[i]?.map Prod.snd).getD 0

/-! ### Merging -/

/-- The first value unless it is empty, else the second. -/
def nonemptyOr {α : Type} (a b : List α) : List α :=
  if a.isEmpty then b else a

/-- A parameter that both sides have: the declaration decides its type and default value, the
implementation its layout, and its name and comments if it has any. -/
def Parameter.merge (declared implemented : Parameter) : Parameter :=
  { declared with
    name := nonemptyOr implemented.name declared.name
    comments := nonemptyOr implemented.comments declared.comments
    onNewLine := implemented.onNewLine
    indent := implemented.indent
    spelling := implemented.spelling }

/-- The parameters of a declaration and its implementation, place by place. -/
def mergeParameters : (declared implemented : List Parameter) → List Parameter
  | [], ps => ps
  | ps, [] => ps
  | d :: ds, i :: is => d.merge i :: mergeParameters ds is

/-- A declaration with what its implementation brings. -/
def Method.merge (declared implemented : Method) : Method :=
  { declared with
    parameters := mergeParameters declared.parameters implemented.parameters
    initializers := nonemptyOr implemented.initializers declared.initializers
    targetFile := implemented.targetFile
    body := implemented.body
    bodyIndent := implemented.bodyIndent
    order := implemented.order
    sourceComments := implemented.sourceComments
    sourceCommentIndent := implemented.sourceCommentIndent
    sourceRegionStart := implemented.sourceRegionStart
    sourceRegionEnd := implemented.sourceRegionEnd }

end Sharpen
