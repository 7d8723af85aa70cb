/-!
# Doubles

A double is a 64-bit pattern: one sign bit, eleven exponent bits, fifty-two fraction bits.  Patterns
are kept as they are, so that a not-a-number keeps its payload until something is computed with it.

* `Double.significand`, `Double.exponent` — a finite magnitude as `significand · 2 ^ exponent`.
* `Double.add`, `Double.sub`, `Double.mul`, `Double.div` — arithmetic, rounded to nearest.
* `Double.numEq`, `Double.numLt` — comparison of values: false whenever an operand is not a number,
  and the two zeros are equal.
-/

namespace ScalarLang

/-- A double-precision number, given by its bit pattern. -/
structure Double where
  bits : UInt64
deriving DecidableEq, Repr, Inhabited

namespace Double

def zero : Double := ⟨0⟩

def one : Double := ⟨0x3FF0000000000000⟩

/-- The pattern of positive infinity; every larger pattern without sign is not a number. -/
def infinityBits : Nat := 0x7FF0000000000000

/-- The weight of the sign bit. -/
def signWeight : Nat := 0x8000000000000000

/-- The weight of the lowest exponent bit; fractions are smaller. -/
def exponentWeight : Nat := 0x10000000000000

/-- Is the sign bit set? -/
def isNegative (d : Double) : Bool := signWeight ≤ d.bits.toNat

/-- The pattern without its sign bit. -/
def magnitudeBits (d : Double) : Nat := d.bits.toNat % signWeight

/-- The eleven exponent bits. -/
def exponentField (d : Double) : Nat := d.magnitudeBits / exponentWeight

/-- The fifty-two fraction bits. -/
def fractionField (d : Double) : Nat := d.magnitudeBits % exponentWeight

def isNaN (d : Double) : Bool := infinityBits < d.magnitudeBits

def isInfinite (d : Double) : Bool := d.magnitudeBits == infinityBits

def isZero (d : Double) : Bool := d.magnitudeBits == 0

/-- The whole number `m` of a finite magnitude `m · 2 ^ q`. -/
def significand (d : Double) : Nat :=
  if d.exponentField = 0 then d.fractionField else d.fractionField + exponentWeight

/-- The exponent `q` of a finite magnitude `m · 2 ^ q`. -/
def exponent (d : Double) : Int :=
  if d.exponentField = 0 then -1074 else (d.exponentField : Int) - 1075

/-- Sets or clears the sign. -/
def withSign (negative : Bool) (magnitude : Nat) : Double :=
  ⟨UInt64.ofNat (if negative then magnitude + signWeight else magnitude)⟩

/-! ### Arithmetic -/

def toFloat (d : Double) : Float := Float.ofBits d.bits

def ofFloat (x : Float) : Double := ⟨x.toBits⟩

def add (a b : Double) : Double := ofFloat (a.toFloat + b.toFloat)

def sub (a b : Double) : Double := ofFloat (a.toFloat - b.toFloat)

def mul (a b : Double) : Double := ofFloat (a.toFloat * b.toFloat)

def div (a b : Double) : Double := ofFloat (a.toFloat / b.toFloat)

/-- Equality of values. -/
def numEq (a b : Double) : Bool :=
  !a.isNaN && !b.isNaN && (a.bits == b.bits || (a.isZero && b.isZero))

/-- The place of a pattern on the number line: patterns of one sign are ordered like their
magnitudes, and the two zeros share a place. -/
def rank (d : Double) : Int :=
  if d.isNegative then -(d.magnitudeBits : Int) else d.magnitudeBits

/-- Order of values. -/
def numLt (a b : Double) : Bool :=
  !a.isNaN && !b.isNaN && a.rank < b.rank

end Double

end ScalarLang
