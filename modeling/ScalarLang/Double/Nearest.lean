import ScalarLang.Double

/-!
# The double nearest to a decimal number

A decimal number `m · 10 ^ e` is read as the double nearest to it; halfway between two doubles the one
with the even significand is taken.  The rounding is done on whole numbers throughout.

* `roundDiv` — a quotient of whole numbers, rounded to nearest, ties to even.
* `Double.nearestBits` — the magnitude pattern nearest to a positive quotient.
* `Double.ofDecimal` — the double nearest to `m · 10 ^ e`.
-/

namespace ScalarLang

/-- The whole number nearest to `num / den`; halfway between two, the even one. -/
def roundDiv (num den : Nat) : Nat :=
  let quotient := num / den
  let twice := 2 * (num % den)
  if twice < den then quotient
  else if den < twice then quotient + 1
  else if quotient % 2 = 0 then quotient else quotient + 1

/-- The quotient `num / den / base ^ e` as a numerator and a denominator. -/
def unscale (base num den : Nat) (e : Int) : Nat × Nat :=
  if 0 ≤ e then (num, den * Nat.pow base e.toNat) else (num * Nat.pow base (-e).toNat, den)

namespace Double

/-- The exponent at which `num / den` has fifty-three significand bits, but never less than the least
exponent there is. -/
def binaryExponent (num den : Nat) : Int :=
  let guess : Int := (num.log2 : Int) - den.log2 - 52
  let (n, d) := unscale 2 num den guess
  max (if n < exponentWeight * d then guess - 1 else guess) (-1074)

/-- The magnitude pattern nearest to `num / den`.  A significand that is rounded up to the next power
of two carries into the exponent bits by itself. -/
def nearestBits (num den : Nat) : Nat :=
  if num = 0 then 0
  else
    let e := binaryExponent num den
    let (n, d) := unscale 2 num den e
    min (roundDiv n d + (e + 1074).toNat * exponentWeight) infinityBits

/-- The magnitude pattern nearest to `m · 10 ^ e`.  Numbers of more than 310 places before the point
are infinite, and those that start more than 324 places behind it are zero; between these bounds the
power of ten is written out. -/
def nearestDecimalBits (m : Nat) (e : Int) : Nat :=
  let places : Int := m.repr.length + e
  if m = 0 then 0
  else if 310 < places then infinityBits
  else if places < -324 then 0
  else
    let (n, d) := unscale 10 m 1 (-e)
    nearestBits n d

/-- The double nearest to `m · 10 ^ e`, or to its negative. -/
def ofDecimal (negative : Bool) (m : Nat) (e : Int) : Double :=
  withSign negative (nearestDecimalBits m e)

end Double

end ScalarLang
