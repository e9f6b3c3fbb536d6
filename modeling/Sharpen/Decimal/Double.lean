import Sharpen.Text.Basic

/-!
# Doubles

A finite double is `mantissa * 2 ^ exponent` with a mantissa of at most 53 bits. All computation is
exact, on natural numbers.

Only what the reading of settings and the writing of numbers need is here: the nearest double of a
decimal, which does not exist if the decimal is too large, and a double as a fraction. Mantissa and
exponent are natural numbers and integers without bounds, so that no step loses anything, and the
bounds are checked at the end.

## Main definitions

* `Double.nearest` is the double nearest to a decimal, a tie going to the even mantissa.
* `Double.fraction` gives a double as a fraction.
* `Double` is the magnitude of a finite double.
* `Double.roundQuotient` rounds a quotient to the nearest number; of two that are equally near, the
  even one.
* `Double.scale` is the fraction `num / den` times `base ^ e`, as a fraction.
* `Double.roundAt` is the double nearest to `num / den` among those with exponent `e`; a mantissa
  that needs one more bit moves to the next exponent.
-/

namespace Sharpen

/-- The magnitude of a finite double. -/
structure Double where
  mantissa : Nat
  exponent : Int
deriving DecidableEq, Repr

namespace Double

/-- The least exponent. -/
def leastExponent : Int := -1074

/-- The greatest exponent. -/
def greatestExponent : Int := 971

/-- The bound of all mantissas. -/
def mantissaBound : Nat := Nat.pow 2 53

/-- Rounds a quotient to the nearest number; of two that are equally near, the even one. -/
def roundQuotient (num den : Nat) : Nat :=
  let q := num / den
  let twice := 2 * (num % den)
  if den < twice || (twice == den && q % 2 == 1) then q + 1 else q

/-- The fraction `num / den` times `base ^ e`, as a fraction. -/
def scale (base : Nat) (num den : Nat) (e : Int) : Nat × Nat :=
  if 0 ≤ e then (num * Nat.pow base e.toNat, den) else (num, den * Nat.pow base (-e).toNat)

/-- The double nearest to `num / den` among those with exponent `e`; a mantissa that needs one more
bit moves to the next exponent. -/
def roundAt (num den : Nat) (e : Int) : Double :=
  let (n, d) := scale 2 num den (-e)
  let m := roundQuotient n d
  if m < mantissaBound then ⟨m, e⟩ else ⟨m / 2, e + 1⟩

/-- The exponent at which `num / den` has a mantissa of 53 bits, or the least one. -/
def exponentOf (num den : Nat) : Int :=
  let e : Int := (Nat.log2 num : Int) - Nat.log2 den - 52
  let (n, d) := scale 2 num den (-e)
  max leastExponent (if n / d < mantissaBound / 2 then e - 1 else e)

/-- The double nearest to `digits * 10 ^ e`, or none if that is too large for a finite one. The
two outer bounds only spare the powers of numbers that are far out of range. -/
def nearest (digits : Nat) (e : Int) : Option Double :=
  if digits == 0 || e + Nat.log2 digits < -400 then some ⟨0, leastExponent⟩
  else if 400 < e then none
  else
    let (num, den) := scale 10 digits 1 e
    let x := roundAt num den (exponentOf num den)
    if x.exponent ≤ greatestExponent then some x else none

/-- A double as a fraction. -/
def fraction (x : Double) : Nat × Nat :=
  scale 2 x.mantissa 1 x.exponent

end Double

end Sharpen
