import Sharpen.Yaml.Quoted
import Sharpen.Yaml.Scalar

/-!
# YAML documents

Reads the part of YAML that settings are written in: mappings and lists in block style and in flow
style, plain and quoted scalars, comments. Whatever else starts a value is refused.

In block style the column decides: the items of a collection stand in one column, and what belongs
to an item stands further right. A list may stand in the column of the key that it belongs to.

Reading follows the structure of the document and gives the rest of it with each value. Anchors,
tags and block scalars are not read; settings have no use for them. The depth of nesting is bounded
by the length of the text, which is what makes the reading end.

## Main definitions

* `Value.ofYaml?` gives the value of a document, or nothing if the text is no document.
* `Yaml.scalar?` reads a scalar, and gives the place behind it.
* `Yaml.flowNode` reads a value in flow style.
* `Yaml.flowValue` reads the value behind a key; there may be none.
* `Yaml.flowItems` reads the items of a list up to its closing bracket.
* `Yaml.flowEntries` reads the entries of a mapping up to its closing brace.
-/

namespace Sharpen

namespace Yaml

/-- Reads a scalar, and gives the place behind it. -/
def scalar? (flow : Bool) (least : Nat) (p : Place) : Option (Value × Place) :=
  match p.head? with
  | some '\'' | some '"' => (quotedScalar? p).map fun (t, q) => (.text t, q)
  | _ => do
    let (t, q) ← plainScalar? flow least p
    let v ← Value.ofPlain? t
    pure (v, q)

/-! ### Flow style

Each of these takes as much fuel as there are values within values and after values, which the
length of the text bounds. -/

mutual

/-- Reads a value in flow style. -/
def flowNode : (fuel : Nat) → Place → Option (Value × Place)
  | 0, _ => none
  | fuel + 1, p =>
    match p.head? with
    | some '[' => do
      let (items, q) ← flowItems fuel (p.advance 1)
      pure (.list items, q)
    | some '{' => do
      let (entries, q) ← flowEntries fuel (p.advance 1)
      pure (.ofEntries entries, q)
    | _ => scalar? true 0 p

/-- Reads the value behind a key; there may be none. -/
def flowValue : (fuel : Nat) → Place → Option (Value × Place)
  | 0, _ => none
  | fuel + 1, p =>
    match p.skip.head? with
    | some ',' | some ']' | some '}' => some (.null, p)
    | _ => flowNode fuel p.skip

/-- Reads the items of a list up to its closing bracket. An item may be a single pair. -/
def flowItems : (fuel : Nat) → Place → Option (List Value × Place)
  | 0, _ => none
  | fuel + 1, p => do
    let p := p.skip
    if p.head? == some ']' then pure ([], p.advance 1)
    else
      let (item, q) ← flowNode fuel p
      let (item, q) ←
        if q.skip.head? == some ':' then
          if q.skip.line != p.line || !item.isScalar then failure
          else
            let (v, r) ← flowValue fuel (q.skip.advance 1)
            pure (Value.ofEntries [(item, v)], r)
        else pure (item, q)
      let q := q.skip
      match q.head? with
      | some ']' => pure ([item], q.advance 1)
      | some ',' =>
        let (items, r) ← flowItems fuel (q.advance 1)
        pure (item :: items, r)
      | _ => failure

/-- Reads the entries of a mapping up to its closing brace. A key may stand alone. -/
def flowEntries : (fuel : Nat) → Place → Option (List (Value × Value) × Place)
  | 0, _ => none
  | fuel + 1, p => do
    let p := p.skip
    if p.head? == some '}' then pure ([], p.advance 1)
    else
      let (key, q) ← flowNode fuel p
      if !key.isScalar then failure
      let (value, q) ←
        if q.skip.head? == some ':' then
          if q.skip.line != p.line then failure else flowValue fuel (q.skip.advance 1)
        else pure (.null, q)
      let q := q.skip
      match q.head? with
      | some '}' => pure ([(key, value)], q.advance 1)
      | some ',' =>
        let (entries, r) ← flowEntries fuel (q.advance 1)
        pure ((key, value) :: entries, r)
      | _ => failure

end

/-! ### Block style -/

/-- Reads the key of an entry and the colon behind it, all on one line. -/
def blockKey? (p : Place) : Option (Value × Place) := do
  let (key, q) ← scalar? false (p.column + 1) p
  let q := q.skipSpaces
  if q.atColon && q.line == p.line then pure (key, q.advance 1) else failure

/-- Whether a key starts here, whatever the rest of it says. -/
def startsEntry (least : Nat) (p : Place) : Option Bool :=
  match p.head? with
  | some '[' | some '{' => some false
  | _ => (scalar? false least p).map fun (_, q) => q.skipSpaces.atColon

mutual

/-- Reads a value that stands at column `least` or further right. Collections in block style need
a place where an entry may start. -/
def blockNode : (fuel : Nat) → (least : Nat) → (entries : Bool) → Place → Option (Value × Place)
  | 0, _, _, _ => none
  | fuel + 1, least, entries, p => do
    if p.atDash then
      if entries then
        let (items, q) ← blockItems fuel p.column false p
        pure (.list items, q)
      else failure
    else if ← startsEntry least p then
      if entries then
        let (es, q) ← blockEntries fuel p.column p
        pure (.ofEntries es, q)
      else failure
    else
      match p.head? with
      | some '[' | some '{' => flowNode fuel p
      | _ => scalar? false least p

/-- Reads the value behind a key in column `column`; there may be none. -/
def blockValue : (fuel : Nat) → (column : Nat) → Place → Option (Value × Place)
  | 0, _, _ => none
  | fuel + 1, column, p =>
    let q := p.skip
    if q.atEnd then some (.null, p)
    else if q.line == p.line then blockNode fuel (column + 1) false q
    else if column < q.column then blockNode fuel (column + 1) true q
    else if q.column == column && q.atDash then do
      let (items, r) ← blockItems fuel column true q
      pure (.list items, r)
    else some (.null, p)

/-- Reads the entries of a mapping in column `column`. -/
def blockEntries : (fuel : Nat) → (column : Nat) → Place →
    Option (List (Value × Value) × Place)
  | 0, _, _ => none
  | fuel + 1, column, p => do
    let (key, q) ← blockKey? p
    let (value, r) ← blockValue fuel column q
    let next := r.skip
    if next.atEnd || next.column < column then pure ([(key, value)], r)
    else if next.column == column && next.line != r.line then
      let (entries, last) ← blockEntries fuel column next
      pure ((key, value) :: entries, last)
    else failure

/-- Reads the items of a list in column `column`. If that is also the column of the key before the
list, other entries may follow in it. -/
def blockItems : (fuel : Nat) → (column : Nat) → (atKey : Bool) → Place →
    Option (List Value × Place)
  | 0, _, _, _ => none
  | fuel + 1, column, atKey, p => do
    let dash := p.advance 1
    let q := dash.skip
    let (item, r) ←
      if !q.atEnd && (q.line == dash.line || column < q.column) then
        blockNode fuel (column + 1) true q
      else pure (.null, dash)
    let next := r.skip
    if next.atEnd || next.column < column then pure ([item], r)
    else if next.column == column && next.line != r.line && next.atDash then
      let (items, last) ← blockItems fuel column atKey next
      pure (item :: items, last)
    else if next.column == column && atKey then pure ([item], r)
    else failure

end

/-- Whether nothing but the mark that ends a document follows. -/
def endsDocument (p : Place) : Bool :=
  let p := p.skip
  p.rest.isEmpty || (p.atMarker && p.head? == some '.' && (p.advance 3).skip.rest.isEmpty)

/-- Reads a document from the place where its first value may start. -/
def document? (entries : Bool) (p : Place) : Option Value := do
  let q := p.skip
  if q.atEnd then
    if endsDocument q then pure .null else failure
  else
    let (v, r) ← blockNode (4 * q.rest.length + 4) 0 entries q
    if endsDocument r then pure v else failure

end Yaml

open Yaml in
/-- The value of a document, if the text is one. -/
def Value.ofYaml? (t : Text) : Option Value :=
  if t.all isAllowed then
    let p := (Place.start t).skip
    if p.atMarker && p.head? == some '-' then
      let q := p.advance 3
      document? (q.skip.line != q.line) q
    else document? true p
  else none

end Sharpen
