import ScalarLang.Double.Nearest

/-!
# Decimal digits of a double

A finite positive double `m · 2 ^ q` is written with the fewest digits that still read back as it, and
of the candidates with that many digits the nearest one is taken; a candidate reads back when it lies
between the two halfway points towards the neighbouring doubles, and on such a point when `m` is even.

* `Decimal` — a coefficient and a power of ten.
* `Double.shortest` — the fewest digits that read back.
* `Double.rounded` — a fixed number of digits, rounded to nearest.
-/

namespace ScalarLang

/-- The number `coefficient · 10 ^ exponent`. -/
structure Decimal where
  coefficient : Nat
  exponent : Int
deriving DecidableEq, Repr, Inhabited

namespace Decimal

/-- The digits of the coefficient, most significant first. -/
def digits (d : Decimal) : List Char := d.coefficient.repr.toList

/-- The power of ten of the first digit. -/
def leading (d : Decimal) : Int := d.exponent + d.digits.length - 1

/-- Moves up to `n` zeros from the end of the coefficient into the exponent. -/
def trim : Nat → Decimal → Decimal
  | 0, d => d
  | n + 1, d =>
    if d.coefficient % 10 = 0 ∧ d.coefficient ≠ 0 then
      trim n ⟨d.coefficient / 10, d.exponent + 1⟩
    else d

end Decimal

namespace Double

/-- `m · 2 ^ q` in units of `10 ^ k`, as a numerator and a denominator. -/
def inTens (m : Nat) (q k : Int) : Nat × Nat :=
  let (n, d) := unscale 2 m 1 (-q)
  unscale 10 n d k

/-- The power of ten of the first decimal digit of `m · 2 ^ q`, for positive `m`. -/
def decimalExponent (m : Nat) (q : Int) : Int :=
  let guess : Int := ((m.log2 : Int) + q) * 30103 / 100000
  let (n, d) := inTens m q guess
  if n < d then guess - 1
  else if 10 * d ≤ n then guess + 1
  else guess

/-- Does `c · 10 ^ k` read back as `m · 2 ^ q`?  The halfway points are two quarter units above and
below `4 · m`, or one below when the neighbour below is nearer. -/
def readsBack (m : Nat) (q : Int) (c : Nat) (k : Int) : Bool :=
  let (n, d) := inTens 1 (q - 2) k
  let below := if m = exponentWeight ∧ -1074 < q then 4 * m - 1 else 4 * m - 2
  let above := 4 * m + 2
  if m % 2 = 0 then below * n ≤ c * d && c * d ≤ above * n
  else below * n < c * d && c * d < above * n

/-- The nearest of the two neighbours of `m · 2 ^ q` on the grid of `10 ^ k` that reads back, if one
of them does; the upper one of two that are equally near. -/
def neighbour? (m : Nat) (q k : Int) : Option Nat :=
  let (n, d) := inTens m q k
  let low := n / d
  let lower := readsBack m q low k
  let upper := readsBack m q (low + 1) k
  if lower && upper then some (if 2 * (n % d) < d then low else low + 1)
  else if lower then some low
  else if upper then some (low + 1)
  else none

/-- The neighbour on the coarsest of the next `n` grids, from `10 ^ k` on, that has one. -/
def shortestFrom (m : Nat) (q : Int) : Nat → Int → Decimal
  | 0, k => ⟨0, k⟩
  | n + 1, k =>
    match neighbour? m q k with
    | some c => ⟨c, k⟩
    | none => shortestFrom m q n (k - 1)

/-- The fewest digits that read back as a finite positive magnitude.  Seventeen always do. -/
def shortest (d : Double) : Decimal :=
  let m := d.significand
  let q := d.exponent
  (shortestFrom m q 18 (decimalExponent m q)).trim 18

/-- A finite positive magnitude rounded to `places + 1` digits. -/
def rounded (d : Double) (places : Nat) : Decimal :=
  let m := d.significand
  let q := d.exponent
  let k := decimalExponent m q - places
  let (num, den) := inTens m q k
  let c := roundDiv num den
  if c < Nat.pow 10 (places + 1) then ⟨c, k⟩ else ⟨c / 10, k + 1⟩

end Double

end ScalarLang
