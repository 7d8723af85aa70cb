import ScalarLang.Literal

/-!
# Doubles read from text

A double is written as an optional sign and a decimal number: digits with a point among them or not, and an
optional exponent.  `inf`, `infinity` and `nan` stand for the doubles that have no digits, in small or
capital letters.

* `Double.powerOfTen?`, `Double.decimalBits?` — the exponent of a decimal number, and the number.
* `Double.ofText?` — the double that a text stands for, if it stands for one.
-/

namespace ScalarLang

namespace Double

/-- What is behind a sign, if there is one. -/
def unsigned : List Char → List Char
  | '-' :: cs => cs
  | '+' :: cs => cs
  | cs => cs

/-- The power of ten behind the digits of a number: none, or `e` with an optional sign and digits. -/
def powerOfTen? : List Char → Option Int
  | [] => some 0
  | c :: cs =>
    if (c == 'e' || c == 'E') && !(unsigned cs).isEmpty && (unsigned cs).all Char.isDigit then
      some (Literal.exponentValue cs)
    else none

/-- The digits of a number in front of its point and behind it, and what is behind the digits. -/
def decimalParts (cs : List Char) : List Char × List Char × List Char :=
  let whole := cs.takeWhile Char.isDigit
  match cs.dropWhile Char.isDigit with
  | '.' :: ds => (whole, ds.takeWhile Char.isDigit, ds.dropWhile Char.isDigit)
  | rest => (whole, [], rest)

/-- The magnitude pattern nearest to a decimal number, which has at least one digit. -/
def decimalBits? (cs : List Char) : Option Nat :=
  let (whole, fraction, rest) := decimalParts cs
  if (whole ++ fraction).isEmpty then none
  else
    (powerOfTen? rest).map fun e =>
      nearestDecimalBits (Literal.digitsValue (whole ++ fraction)) (e - fraction.length)

/-- The pattern of a double that has no digits. -/
def namedBits? (cs : List Char) : Option Nat :=
  match String.ofList (cs.map Char.toLower) with
  | "inf" | "infinity" => some infinityBits
  | "nan" => some (infinityBits + exponentWeight / 2)
  | _ => none

def magnitude? (cs : List Char) : Option Nat := (decimalBits? cs).or (namedBits? cs)

/-- The double that a text stands for. -/
def ofText? (text : String) : Option Double :=
  match text.toList with
  | '-' :: cs => (magnitude? cs).map (withSign true)
  | '+' :: cs => (magnitude? cs).map (withSign false)
  | cs => (magnitude? cs).map (withSign false)

end Double

end ScalarLang
