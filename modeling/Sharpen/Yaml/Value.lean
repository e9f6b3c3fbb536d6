import Sharpen.Decimal.Shortest
import Sharpen.Text.Quoted

/-!
# YAML values

What a document says: scalars, lists and mappings. Scalars can be shown as text in two ways, as they
stand in a generated file and as they stand in a message.

Mappings keep the order of their entries. A key that comes again replaces the value of the first one
and keeps its place. Numbers are shown as they are written in a file that is made from them, with
the shortest decimal that is the same number.

## Main definitions

* `Value.text?` is the text of a scalar; `Value.shown` is how a message shows a value.
* `Value.get?` looks up a key; `Value.put` adds an entry, the last of a key's values counting.
* `Value` is a value of a document.
* `Value.boolText` is the text of a truth value.
* `Value.intText` is the decimal text of an integer.
* `Value.padded` is a number with at least the given count of digits.
-/

namespace Sharpen

/-- A value of a document. -/
inductive Value where
  | null
  | bool (b : Bool)
  | int (n : Int)
  | number (x : Number)
  | date (year month day : Nat)
  | text (t : Text)
  | list (items : List Value)
  | map (entries : List (Value × Value))
deriving Repr, Inhabited

namespace Value

/-- The text of a truth value. -/
def boolText (b : Bool) : Text :=
  if b then "True" else "False"

/-- The decimal text of an integer. -/
def intText (n : Int) : Text :=
  (if n < 0 then ['-'] else []) ++ Text.ofNat n.natAbs

/-- A number with at least the given count of digits. -/
def padded (width n : Nat) : Text :=
  let ds := Text.ofNat n
  List.replicate (width - ds.length) '0' ++ ds

/-- The text of a truth value, a number or a text; other values have none. -/
def text? : Value → Option Text
  | .bool b => some (boolText b)
  | .int n => some (intText n)
  | .number x => some x.text
  | .text t => some t
  | _ => none

/-- The text of a value that can be a key. -/
def keyText : Value → Text
  | .null => "None"
  | .date y m d => Text.join "-" [padded 4 y, padded 2 m, padded 2 d]
  | v => v.text?.getD []

/-- How a message shows a value that can be a key: texts stand between quotes. -/
def shown : Value → Text
  | .text t => t.quoted
  | v => v.keyText

/-- Whether a value says nothing: null, false, zero and whatever is empty. -/
def isVoid : Value → Bool
  | .null => true
  | .bool b => !b
  | .int n => n == 0
  | .number x => x.isZero
  | .date .. => false
  | .text t => t.isEmpty
  | .list items => items.isEmpty
  | .map entries => entries.isEmpty

/-- Whether a value can be a key. -/
def isScalar : Value → Bool
  | .list _ | .map _ => false
  | _ => true

/-- Whether two scalars are the same key. Truth values count as the integers one and zero. -/
def sameKey : Value → Value → Bool
  | .null, .null => true
  | .bool a, .bool b => a == b
  | .bool a, .int n | .int n, .bool a => n == a.toNat
  | .int a, .int b => a == b
  | .number a, .number b => a == b && a != .undefined
  | .date y m d, .date y' m' d' => (y, m, d) == (y', m', d')
  | .text a, .text b => a == b
  | _, _ => false

/-- Adds an entry. A key that is there already keeps its place and takes the new value. -/
def put (entries : List (Value × Value)) (key value : Value) : List (Value × Value) :=
  if entries.any fun e => sameKey e.1 key then
    entries.map fun e => if sameKey e.1 key then (e.1, value) else e
  else entries ++ [(key, value)]

/-- A mapping with the given entries, the last of a key's values counting. -/
def ofEntries (entries : List (Value × Value)) : Value :=
  .map (entries.foldl (fun acc e => put acc e.1 e.2) [])

/-- The value of a text key. -/
def get? (entries : List (Value × Value)) (key : Text) : Option Value :=
  (entries.find? fun e => sameKey e.1 (.text key)).map Prod.snd

end Value

end Sharpen
