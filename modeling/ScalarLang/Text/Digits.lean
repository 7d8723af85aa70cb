/-!
# Digits

Decimal and hexadecimal digits, the latter in small or capital letters, and the numbers that rows of them
denote.
-/

namespace ScalarLang

def digitValue (c : Char) : Nat :=
  if c.isDigit then c.toNat - '0'.toNat else c.toLower.toNat - 'a'.toNat + 10

def isHexDigit (c : Char) : Bool := c.isDigit || ('a' ≤ c.toLower && c.toLower ≤ 'f')

/-- The number that a row of digits denotes, the first digit having the highest place. -/
def ofDigits (base : Nat) (cs : List Char) : Nat :=
  cs.foldl (fun value c => value * base + digitValue c) 0

end ScalarLang
