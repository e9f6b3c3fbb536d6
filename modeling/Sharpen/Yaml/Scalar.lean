import Sharpen.Text.Digit
import Sharpen.Yaml.Value

/-!
# Plain scalars

A scalar without quotes stands for a value that its form decides: nothing, a truth value, an
integer, a number with a fraction, a date, or itself as text.

The forms are tried in a fixed order, and a text that has none of them is itself. Numbers may be
grouped by underscores and written in other bases; what looks like a date is one only if there is
such a day.

## Main definitions

* `Value.ofPlain?` gives that value.
* `Yaml.spellings` is the spellings of a word: small letters, capitalised, capitals.
* `Yaml.isNull` holds of the words for null.
* `Yaml.bool?` is the truth value of a word.
* `Yaml.splitSign` is the sign in front of a number and what follows it.
* `Yaml.ungrouped` is the text without underscores, which only group digits.
-/

namespace Sharpen

namespace Yaml

/-- The spellings of a word: small letters, capitalised, capitals. -/
def spellings (w : Text) : List Text :=
  [w, (w.take 1).map Char.toUpper ++ w.drop 1, w.map Char.toUpper]

/-- The words for null. -/
def isNull (t : Text) : Bool :=
  t == "~" || (spellings "null").contains t

/-- The truth value of a word. -/
def bool? (t : Text) : Option Bool :=
  if ((["true", "yes", "on"] : List Text).flatMap spellings).contains t then some true
  else if ((["false", "no", "off"] : List Text).flatMap spellings).contains t then some false
  else none

/-- The sign in front of a number and what follows it. -/
def splitSign : Text → Bool × Text
  | '-' :: r => (true, r)
  | '+' :: r => (false, r)
  | t => (false, t)

/-- The text without underscores, which only group digits. -/
def ungrouped (t : Text) : Text :=
  t.filter (· != '_')

/-- The value of a digit, of either case. -/
def digitValue (c : Char) : Nat :=
  if c.isDigit then c.toNat - '0'.toNat
  else if 'a' ≤ c && c ≤ 'f' then c.toNat - 'a'.toNat + 10
  else c.toNat - 'A'.toNat + 10

/-- The value of digits in a base. -/
def digitsValue (base : Nat) (t : Text) : Nat :=
  (ungrouped t).foldl (fun n c => base * n + digitValue c) 0

/-- Digits of a class, among which underscores may stand, with at least one digit. -/
def isGrouped (p : Char → Bool) (t : Text) : Bool :=
  !t.isEmpty && t.all (fun c => p c || c == '_')

/-- Decimal digits that do not start with an underscore. -/
def isCount (t : Text) : Bool :=
  t.head?.any Char.isDigit && isGrouped Char.isDigit t

/-- A part of a number in base sixty. -/
def isSixtieth (t : Text) : Bool :=
  t.all Char.isDigit && (t.length == 1 || (t.length == 2 && t.head?.any (· ≤ '5')))

/-- The value of parts in base sixty. -/
def sixtyValue (parts : List Text) : Nat :=
  parts.foldl (fun n p => 60 * n + digitsValue 10 p) 0

/-- An integer without its sign: binary, octal, decimal, hexadecimal, or in base sixty. -/
def natural? (t : Text) : Option Nat :=
  match t with
  | ['0'] => some 0
  | '0' :: 'b' :: r => if isGrouped (fun c => c == '0' || c == '1') r then digitsValue 2 r else none
  | '0' :: 'x' :: r => if isGrouped isHex r then digitsValue 16 r else none
  | '0' :: r => if isGrouped (fun c => '0' ≤ c && c ≤ '7') r then digitsValue 8 r else none
  | _ =>
    match Text.splitOn ':' t with
    | [] => none
    | whole :: parts =>
      if isCount whole && parts.all isSixtieth then some (sixtyValue (whole :: parts)) else none

/-- An integer. -/
def int? (t : Text) : Option Int :=
  let (negative, t) := splitSign t
  (natural? t).map fun n => if negative then -(n : Int) else n

/-- An exponent, which needs a sign. -/
def exponent? : Text → Option Int
  | [] => some 0
  | e :: s :: ds =>
    if (e == 'e' || e == 'E') && (s == '+' || s == '-') && !ds.isEmpty && ds.all Char.isDigit then
      let n : Int := digitsValue 10 ds
      some (if s == '-' then -n else n)
    else none
  | _ => none

/-- The digits behind a point and the exponent. -/
def fraction? (t : Text) : Option (Text × Int) :=
  let ds := t.takeWhile fun c => c.isDigit || c == '_'
  (exponent? (t.drop ds.length)).map fun e => (ungrouped ds, e)

/-- A number with a point, without its sign: digits and the exponent of the last one. -/
def decimal? (t : Text) : Option (Nat × Int) := do
  let (whole, rest) ← Text.cutAt '.' t
  match Text.splitOn ':' whole with
  | [w] =>
    if w.isEmpty && !rest.head?.any Char.isDigit then failure
    else if !w.isEmpty && !isCount w then failure
    else
      let (ds, e) ← fraction? rest
      pure (digitsValue 10 (w ++ ds), e - ds.length)
  | w :: parts =>
    let ds := ungrouped rest
    if isCount w && parts.all isSixtieth && ds.all Char.isDigit then
      pure (sixtyValue (w :: parts) * Nat.pow 10 ds.length + digitsValue 10 ds, -(ds.length : Int))
    else failure
  | [] => failure

/-- The words for a number that is not finite, behind a sign. -/
def infinity : List Text :=
  [".inf", ".Inf", ".INF"]

/-- A number that has a point. A sign may not stand before a point with nothing in front of it. -/
def number? (t : Text) : Option Number :=
  let (negative, r) := splitSign t
  if infinity.contains r then some (.infinite negative)
  else if ([".nan", ".NaN", ".NAN"] : List Text).contains t then some .undefined
  else if r.head? == some '.' && r != t then none
  else (decimal? r).map fun d => .ofDecimal negative d.1 d.2

/-- A date. -/
def date? (t : Text) : Option Value :=
  match Text.splitOn '-' t with
  | [y, m, d] =>
    if y.length == 4 && m.length == 2 && d.length == 2 && [y, m, d].all (·.all Char.isDigit) then
      some (.date (digitsValue 10 y) (digitsValue 10 m) (digitsValue 10 d))
    else none
  | _ => none

/-- The two marks that mean neither a text nor a value. -/
def isReserved (t : Text) : Bool :=
  t == "<<" || t == "="

end Yaml

/-- The value of a plain scalar. -/
def Value.ofPlain? (t : Text) : Option Value :=
  if Yaml.isReserved t then none
  else if Yaml.isNull t then some .null
  else some (((Yaml.bool? t).map Value.bool <|> (Yaml.number? t).map Value.number
    <|> (Yaml.int? t).map Value.int <|> Yaml.date? t).getD (.text t))

end Sharpen
