import ScalarLang.Double.Reading
import ScalarLang.Double.Shortest

/-!
# Written doubles

Doubles are written in two ways.  A value shown to a reader has the fewest digits that read back
(`Double.describe`).  A constant in a listing has six decimals and an exponent when that is exact, and
otherwise its bit pattern (`Double.constantText`), so that a listing never changes a constant.

* `Double.describe` — `0.5`, `1.0`, `1e16`, `1e-5`, `-0.0`, `inf`, `NaN`.
* `Double.scientific?` — the six-decimal form of a double that reads back as the same number.
* `Double.constantText` — `5.000000e-01`, `0x3FB999999999999A`.
-/

namespace ScalarLang

namespace Double

/-- The powers of ten of the first digit for which a number is written without an exponent. -/
structure PositionalRange where
  least : Int
  greatest : Int

/-- Values from one ten-thousandth up to sixteen places before the point are written positionally. -/
def positional : PositionalRange := ⟨-4, 15⟩

/-- A sign in front of negative numbers, negative zero among them. -/
def sign (d : Double) : String := if d.isNegative then "-" else ""

/-- Digits with a point after the first `places` of them, filled up with zeros; there is at least one
digit on each side of the point. -/
def pointed (digits : List Char) (places : Int) : String :=
  if places ≤ 0 then
    "0." ++ String.ofList (List.replicate (-places).toNat '0' ++ digits)
  else
    let n := places.toNat
    let whole := digits.take n ++ List.replicate (n - digits.length) '0'
    let part := digits.drop n
    String.ofList whole ++ "." ++ String.ofList (if part.isEmpty then ['0'] else part)

/-- One digit, the others behind a point if there are any, and the exponent. -/
def exponential (digits : List Char) (leading : Int) : String :=
  let rest := digits.drop 1
  String.ofList (digits.take 1) ++ (if rest.isEmpty then "" else "." ++ String.ofList rest)
    ++ "e" ++ leading.repr

/-- The fewest digits that read back, positionally or with an exponent. -/
def describe (d : Double) : String :=
  if d.isNaN then "NaN"
  else if d.isInfinite then d.sign ++ "inf"
  else if d.isZero then d.sign ++ "0.0"
  else
    let s := d.shortest
    let leading := s.leading
    d.sign ++
      (if positional.least ≤ leading ∧ leading ≤ positional.greatest then
        pointed s.digits (leading + 1)
      else exponential s.digits leading)

/-! ### Constants -/

/-- The digits of `n`, with zeros in front up to `width`. -/
def padded (width : Nat) (digits : String) : String :=
  String.ofList (List.replicate (width - digits.length) '0') ++ digits

/-- The bit pattern in sixteen hexadecimal digits. -/
def hexText (d : Double) : String :=
  "0x" ++ padded 16 (String.ofList ((Nat.toDigits 16 d.bits.toNat).map Char.toUpper))

/-- A finite double rounded to seven significant digits. -/
def sevenDigits (d : Double) : Decimal :=
  if d.isZero then ⟨0, -6⟩ else d.rounded 6

/-- One digit, six decimals and an exponent; a double without digits is named. -/
def sixPlaces (d : Double) : String :=
  if d.isNaN then "NaN"
  else if d.isInfinite then d.sign ++ "inf"
  else
    let s := d.sevenDigits
    let digits := (padded 7 s.coefficient.repr).toList
    d.sign ++ String.ofList (digits.take 1) ++ "." ++ String.ofList (digits.drop 1)
      ++ "e" ++ (s.exponent + 6).repr

/-- An exponent with its sign and at least two digits. -/
def signedExponent : List Char → String
  | '-' :: digits => "-" ++ padded 2 (String.ofList digits)
  | digits => "+" ++ padded 2 (String.ofList digits)

/-- The six-decimal form of a double that it can be read back from, with a signed exponent. -/
def scientific? (d : Double) : Option String :=
  if (ofText? d.sixPlaces).any fun v => v.numEq d then
    let mantissa := d.sixPlaces.toList.takeWhile (· != 'e')
    match d.sixPlaces.toList.dropWhile (· != 'e') with
    | _ :: exponent => some (String.ofList mantissa ++ "e" ++ signedExponent exponent)
    | [] => none
  else none

/-- The text of a constant: the six-decimal form where it is exact, the bit pattern elsewhere. -/
def constantText (d : Double) : String :=
  d.scientific?.getD d.hexText

end Double

end ScalarLang
