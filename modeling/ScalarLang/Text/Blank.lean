/-!
# Blank characters

The characters of the Unicode property `White_Space`: they separate tokens and are trimmed from the
ends of lines typed at a prompt.
-/

namespace ScalarLang

/-- The ranges of blank characters, in ascending order. -/
def blankRanges : List (Nat × Nat) :=
  [(0x9, 0xD), (0x20, 0x20), (0x85, 0x85), (0xA0, 0xA0), (0x1680, 0x1680), (0x2000, 0x200A),
    (0x2028, 0x2029), (0x202F, 0x202F), (0x205F, 0x205F), (0x3000, 0x3000)]

/-- Is `c` blank? -/
def isBlank (c : Char) : Bool :=
  blankRanges.any fun r => r.1 ≤ c.toNat && c.toNat ≤ r.2

/-- Twenty-five characters are blank. -/
example : (blankRanges.map fun r => r.2 - r.1 + 1).sum = 25 := by decide

/-- A text without the blanks at either end. -/
def trimBlanks (cs : List Char) : List Char :=
  ((cs.dropWhile isBlank).reverse.dropWhile isBlank).reverse

end ScalarLang
