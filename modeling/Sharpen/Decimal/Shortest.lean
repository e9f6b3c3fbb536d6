import Sharpen.Decimal.Double

/-!
# Shortest decimals

The text of a double has the fewest digits that read back as that double, and of those the ones
nearest to it.

The digits are found by trying lengths from one on. For each length there are two candidates next to
the double, of which the nearer one is tried first. Seventeen digits are always enough, so the
search has a bound.

## Main definitions

* `Double.readsBack` says which decimals round to a double.
* `Double.shortest` gives the digits and the exponent of the first one.
* `Number.text` writes a number: positionally from `0.0001` up to below `10 ^ 16`, and otherwise
  with an exponent.
* `Double.withDigits?` is the decimal with `count` digits that reads back as a double, if there is
  one: of the two next to the double the nearer, and at equal distance the even one.
* `Number` is a number as it may stand in a document.
* `Number.ofDecimal` is the number nearest to a decimal.
-/

namespace Sharpen

/-- The number of decimal digits. -/
def digitCount (n : Nat) : Nat :=
  (Text.ofNat n).length

namespace Double

/-- The exponent of the first decimal digit of a positive fraction. -/
def leadExponent (num den : Nat) : Int :=
  if den ≤ num then digitCount (num / den) - 1
  else -(digitCount ((den - 1) / num) : Int)

/-- Whether `a / b ≤ c / d`, or `<` if the bound does not count. -/
def within (closed : Bool) (a b c d : Nat) : Bool :=
  a * d < c * b || (closed && a * d == c * b)

/-- Whether `digits * 10 ^ e` rounds to a double. The bounds lie half a step away, except that
below a power of two the steps are half as wide; they count if the mantissa is even. -/
def readsBack (x : Double) (digits : Nat) (e : Int) : Bool :=
  let narrow := x.mantissa == mantissaBound / 2 && leastExponent < x.exponent
  let (low, unit) := scale 2 (4 * x.mantissa - (if narrow then 1 else 2)) 1 (x.exponent - 2)
  let (high, unit') := scale 2 (4 * x.mantissa + 2) 1 (x.exponent - 2)
  let (n, d) := scale 10 digits 1 e
  let closed := x.mantissa % 2 == 0
  within closed low unit n d && within closed n d high unit'

/-- The decimal with `count` digits that reads back as a double, if there is one: of the two next
to the double the nearer, and at equal distance the even one. -/
def withDigits? (x : Double) (count : Nat) : Option (Nat × Int) :=
  let (num, den) := x.fraction
  let e := leadExponent num den - count + 1
  let (n, d) := scale 10 num den (-e)
  let below := n / d
  let near := roundQuotient n d
  let far := if near == below then below + 1 else below
  ([near, far].find? fun digits => x.readsBack digits e).map fun digits => (digits, e)

/-- The fewest digits that read back as a positive double, and the exponent of the first one. -/
def shortest (x : Double) : Text × Int :=
  let (digits, e) := ((List.range 17).findSome? fun i => x.withDigits? (i + 1)).getD (0, 0)
  let ds : Text := Text.ofNat digits
  (ds.dropEndWhile (· == '0'), e + ds.length - 1)

end Double

/-- A number as it may stand in a document. -/
inductive Number where
  | finite (negative : Bool) (value : Double)
  | infinite (negative : Bool)
  | undefined
deriving DecidableEq, Repr

namespace Number

/-- The number nearest to a decimal. -/
def ofDecimal (negative : Bool) (digits : Nat) (e : Int) : Number :=
  match Double.nearest digits e with
  | some x => .finite negative x
  | none => .infinite negative

/-- Digits with a point behind the first `whole` ones. -/
def pointed (ds : Text) (whole : Nat) : Text :=
  let fraction := if ds.length ≤ whole then ['0'] else ds.drop whole
  ds.take whole ++ List.replicate (whole - ds.length) '0' ++ '.' :: fraction

/-- An exponent with its sign and at least two digits. -/
def exponentText (e : Int) : Text :=
  let ds := Text.ofNat e.natAbs
  (if e < 0 then '-' else '+') :: (List.replicate (2 - ds.length) '0' ++ ds)

/-- Digits with the exponent of the first one. -/
def layout (ds : Text) (e : Int) : Text :=
  if e < -4 || 16 ≤ e then
    ds.take 1 ++ (if ds.length ≤ 1 then [] else '.' :: ds.drop 1) ++ "e" ++ exponentText e
  else if e < 0 then ("0." : Text) ++ List.replicate (-e - 1).toNat '0' ++ ds
  else pointed ds (e + 1).toNat

/-- The sign of a number. -/
def sign (negative : Bool) : Text :=
  if negative then "-" else []

/-- The text of a number. -/
def text : Number → Text
  | .finite negative x =>
    if x.mantissa == 0 then sign negative ++ "0.0"
    else
      let (ds, e) := x.shortest
      sign negative ++ layout ds e
  | .infinite negative => sign negative ++ "inf"
  | .undefined => "nan"

/-- Whether a number is zero. -/
def isZero : Number → Bool
  | .finite _ x => x.mantissa == 0
  | _ => false

end Number

end Sharpen
