import Sharpen.Decl.Owner
import Sharpen.Header.Basic
import Sharpen.Plan.Basic
import Sharpen.Plan.Merge
import Sharpen.Source.Basic

/-!
# Bringing headers and sources together

All types of the headers and sources lie in one pool and are referred to by their place in it. A
name stands for the first type that has it; implementations, static initializers and local functions
are handed to the type their owner's name stands for.

Sources are taken in the order of their names, and each one hands out its implementations, its
static initializers and what it has for the owner of its local functions, in this order. An
implementation without a declaration is kept by its owner as it is. What finds no owner is reported.
At the end the methods that were added are put in order.

## Main definitions

* `Registry` says which type a name stands for.
* `Pool` is the pool while the sources are handed out, one after the other.
* `reconcileTypes` brings everything together.
* `Registry.register` registers the type at a place; the first type with a name keeps it.
* `Registry.ofTypes` registers all types of a pool.
* `Pool.modifyMethod` changes one method of the type at a place.
-/

namespace Sharpen

/-! ### Names -/

/-- The types that names stand for, in the order the names are first met. -/
structure Registry where
  entries : List (Text × Nat) := []
  /-- The places of types whose name was taken. -/
  repeated : List Nat := []
deriving DecidableEq, Repr

namespace Registry

/-- The place of the type that a name stands for. -/
def find? (r : Registry) (name : Text) : Option Nat :=
  (r.entries.find? (·.1 == name)).map Prod.snd

/-- Registers the type at a place; the first type with a name keeps it. -/
def register (r : Registry) (p : TypeDecl × Nat) : Registry :=
  if (r.find? p.1.name).isSome then { r with repeated := r.repeated ++ [p.2] }
  else { r with entries := r.entries ++ [(p.1.name, p.2)] }

/-- Registers all types of a pool. -/
def ofTypes (types : List TypeDecl) : Registry :=
  types.zipIdx.foldl register {}

end Registry

/-! ### The pool -/

/-- The pool of types while the sources are handed out. -/
structure Pool where
  types : List TypeDecl
  notices : List PlanNotice := []
deriving DecidableEq, Repr

namespace Pool

/-- Adds a report. -/
def report (p : Pool) (n : PlanNotice) : Pool :=
  { p with notices := p.notices ++ [n] }

/-- Changes the type at a place. -/
def modify (p : Pool) (i : Nat) (f : TypeDecl → TypeDecl) : Pool :=
  { p with types := p.types.modify i f }

/-- Changes one method of the type at a place. -/
def modifyMethod (p : Pool) (i j : Nat) (f : Method → Method) : Pool :=
  p.modify i fun d => { d with methods := d.methods.modify j f }

/-- Adds a method to the type at a place. -/
def addMethod (p : Pool) (i : Nat) (m : Method) : Pool :=
  p.modify i fun d => { d with methods := d.methods ++ [m] }

end Pool

/-! ### Implementations -/

/-- Whether a method of a type waits for an implementation. -/
def awaitsBody (m : Method) : Bool :=
  !m.hasInlineBody && m.body.isNone && !m.isLocal

/-- Whether a static method of an interface waits for an implementation, which often stands with
the class that implements the interface. -/
def awaitsStaticBody (m : Method) : Bool :=
  m.isStatic && m.body.isNone

/-- Looks for the declaration of an implementation among the static methods of the interfaces with
the given names. Gives the last result, with the place of the interface. -/
def matchBases (registry : Registry) (types : List TypeDecl) (impl : Method) :
    List Text → Pairing × Nat → Pairing × Nat
  | [], found => found
  | base :: r, found =>
    match registry.find? base with
    | none => matchBases registry types impl r found
    | some i =>
      match types[i]? with
      | none => matchBases registry types impl r found
      | some d =>
        if !d.isInterface then matchBases registry types impl r found
        else
          let pairing := matchAmong d.methods awaitsStaticBody impl
          if pairing.index?.isSome then (pairing, i)
          else matchBases registry types impl r (pairing, i)

/-- Finds the declaration of an implementation of the type at place `owner`, and the place of the
type that has it. -/
def findDeclaration (registry : Registry) (types : List TypeDecl) (owner : Nat) (impl : Method) :
    Pairing × Nat :=
  match types[owner]? with
  | none => (.absent, owner)
  | some d =>
    match matchAmong d.methods awaitsBody impl with
    | .absent => matchBases registry types impl d.bases (.absent, owner)
    | pairing => (pairing, owner)

/-- The comment that marks an implementation whose declaration is not known. -/
def ambiguousComment : Text :=
  "// TODO: ambiguous overload, pair with its declaration by hand"

/-- Hands an implementation of the source `stem` to its owner: it completes its declaration, or
stays with the type as a method of its own. -/
def attachImplementation (registry : Registry) (stem : Text) (pool : Pool) (impl : Method) : Pool :=
  match registry.find? impl.owner with
  | none => pool.report (.unknownOwner stem impl.owner impl.name)
  | some owner =>
    match findDeclaration registry pool.types owner impl with
    | (.exact j, i) => pool.modifyMethod i j (·.merge impl)
    | (.nameOnly j, i) =>
      (pool.report (.matchedByName stem impl.owner impl.name)).modifyMethod i j (·.merge impl)
    | (.ambiguous, _) =>
      (pool.report (.ambiguous stem impl.owner impl.name)).addMethod owner
        { impl with sourceComments := impl.sourceComments ++ [ambiguousComment] }
    | (.absent, _) =>
      (pool.addMethod owner impl).report (.undeclared stem impl.owner impl.name)

/-! ### Static initializers -/

/-- The members with a value for the one at a place, unless it has one. -/
def initializeMember (members : List Member) (j : Nat) (value : Text) : List Member :=
  members.modify j fun m => { m with initializer := m.initializer.or (some value) }

/-- Hands a static initializer to its member. -/
def attachStaticInit (registry : Registry) (stem : Text) (pool : Pool) (init : StaticInit) : Pool :=
  let place : Option (Nat × Nat) := do
    let i ← registry.find? init.owner
    let d ← pool.types[i]?
    let j ← d.members.findIdx? (·.name == init.name)
    some (i, j)
  match place with
  | none => pool.report (.noMember stem init.owner init.name)
  | some (i, j) =>
    pool.modify i fun d => { d with members := initializeMember d.members j init.value }

/-! ### Local functions and constants -/

/-- A header with the place of its first type in the pool. -/
structure PlacedHeader where
  header : Header
  place : Nat
deriving Repr

/-- The headers with the places of their types, the first of which is `place`. -/
def placeHeaders : (place : Nat) → List Header → List PlacedHeader
  | _, [] => []
  | place, h :: r => ⟨h, place⟩ :: placeHeaders (place + h.types.length) r

/-- The place of the type that owns the local functions and constants of a source: the type with
most implementations there, else the one that owns the constants of the header of the same name. -/
def ownerOfLocals (registry : Registry) (headers : List PlacedHeader) (interfaces : List Text)
    (source : Source) : Option Nat :=
  let named := localOwner? (fun o => source.implementationCount o) source.ownerOrder interfaces
  match named.bind registry.find? with
  | some i => some i
  | none =>
    (headers.find? (·.header.stem == source.stem)).bind fun h =>
      (constantOwner? h.header.types h.header.stem).map (· + h.place)

/-- Hands the local functions and constants of a source to their owner. -/
def attachLocals (registry : Registry) (headers : List PlacedHeader) (interfaces : List Text)
    (pool : Pool) (source : Source) : Pool :=
  match ownerOfLocals registry headers interfaces source with
  | none =>
    if source.locals.isEmpty && source.constants.isEmpty then pool
    else pool.report (.unowned source.stem source.locals.length source.constants.length)
  | some i =>
    pool.modify i fun d =>
      { d with
        methods := d.methods ++ source.locals.map fun m => { m with owner := d.name }
        sourceConstants := d.sourceConstants ++ source.constants }

/-- Hands out everything that a source holds. -/
def attachSource (registry : Registry) (headers : List PlacedHeader) (interfaces : List Text)
    (pool : Pool) (source : Source) : Pool :=
  let pool := source.methods.foldl (attachImplementation registry source.stem) pool
  let pool := source.staticInits.foldl (attachStaticInit registry source.stem) pool
  attachLocals registry headers interfaces pool source

/-! ### Order and diagnosis -/

/-- The place of a source among all sources; files that are none come last. -/
def sourceRank (sources : List Source) (file : Text) : Nat :=
  let stems := sources.map Source.stem
  match stems.reverse.findIdx? (· == file) with
  | some back => stems.length - 1 - back
  | none => stems.eraseDups.length

/-- Whether a method that only sources have comes before another one. -/
def sourceOrder (rank : Text → Nat) (a b : Method) : Bool :=
  rank a.targetFile < rank b.targetFile
    || (rank a.targetFile == rank b.targetFile && a.order ≤ b.order)

/-- The methods of a type in their final order: the declared ones as they were declared, then the
others by source and position. -/
def orderMethods (rank : Text → Nat) (declared : Nat) (methods : List Method) : List Method :=
  methods.take declared ++ (methods.drop declared).mergeSort (sourceOrder rank)

/-- The report about a type for none of whose methods a body was found. -/
def headerOnlyNotice? (d : TypeDecl) : Option PlanNotice :=
  if d.isInterface || !(d.methods.any fun m => m.needsBody && m.body.isNone)
      || d.methods.any Method.hasBody then none
  else some (.headerOnly d.name d.methods.length (d.methods.countP (·.body.isSome)))

/-- The headers, sources and types once everything has been handed out. -/
structure Reconciled where
  headers : List Header
  /-- The sources, with the types they define as they are at the end. -/
  sources : List Source
  /-- The types of the headers, each name once. -/
  types : List TypeDecl
  implementations : List Method
  notices : List PlanNotice
deriving Repr

/-- Gives every source back the types that lie in the pool for it, the first at `place`. -/
def restoreStructs (types : List TypeDecl) : (place : Nat) → List Source → List Source
  | _, [] => []
  | place, s :: r =>
    { s with structs := (types.drop place).take s.structs.length }
      :: restoreStructs types (place + s.structs.length) r

/-- The report about a header type whose name was taken. -/
def repeatedNotices (headers : List Header) (registry : Registry) : List PlanNotice :=
  let named := headers.flatMap fun h => h.types.map fun d => PlanNotice.declaredAgain d.name h.stem
  registry.repeated.filterMap fun i => named[i]?

/-- Brings headers and sources together. Both are taken in the order of their names. -/
def reconcileTypes (headers : List Header) (sources : List Source) : Reconciled :=
  let headers := headers.mergeSort fun a b => Text.precedes a.stem b.stem
  let sources := sources.mergeSort fun a b => Text.precedes a.stem b.stem
  let headerTypes := headers.flatMap Header.types
  let initial := headerTypes ++ sources.flatMap Source.structs
  let registry := Registry.ofTypes initial
  let places := registry.entries.map Prod.snd
  let interfaces := (registry.entries.filter fun e =>
    initial[e.2]?.any TypeDecl.isInterface).map Prod.fst
  let pool : Pool := { types := initial, notices := repeatedNotices headers registry }
  let pool := sources.foldl (attachSource registry (placeHeaders 0 headers) interfaces) pool
  let types := pool.types.mapIdx fun i d =>
    if places.contains i then
      let declared := (initial[i]?.map (·.methods.length)).getD 0
      { d with methods := orderMethods (sourceRank sources) declared d.methods }
    else d
  { headers := headers
    sources := restoreStructs types headerTypes.length sources
    types := (places.filter (· < headerTypes.length)).filterMap fun i => types[i]?
    implementations := sources.flatMap Source.methods
    notices := pool.notices ++ places.filterMap fun i => types[i]?.bind headerOnlyNotice? }

end Sharpen
