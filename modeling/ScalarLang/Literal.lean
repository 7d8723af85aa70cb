import ScalarLang.Double.Nearest

/-!
# Number literals

A literal is `[0-9]+` or `[0-9]*.[0-9]+`, optionally followed by an exponent `[eE][+-]?[0-9]+`.  The
first form without an exponent is an integer, every other form a double.  Literals are recognised by
an automaton that is fed one character after the other; a character it refuses changes nothing and is
left to whoever reads on.

* `Literal.State.next?` — the transitions.
* `Recognizer.read?`, `Recognizer.readAll` — one character, and as many as possible.
* `Recognizer.value` — the value of what has been read, or why it has none.
-/

namespace ScalarLang

namespace Literal

/-- What the characters read so far amount to. -/
inductive State where
  | start
  | integerDigits
  | dotSeen
  | fractionDigits
  | exponentMarker
  | exponentSign
  | exponentDigits
deriving DecidableEq, Repr, Inhabited

/-- The state after one more character, if the literal can go on with it. -/
def State.next? : State → Char → Option State
  | .start, c =>
    if c.isDigit then some .integerDigits
    else if c = '.' then some .dotSeen
    else none
  | .integerDigits, c =>
    if c.isDigit then some .integerDigits
    else if c = '.' then some .dotSeen
    else if c = 'e' ∨ c = 'E' then some .exponentMarker
    else none
  | .dotSeen, c => if c.isDigit then some .fractionDigits else none
  | .fractionDigits, c =>
    if c.isDigit then some .fractionDigits
    else if c = 'e' ∨ c = 'E' then some .exponentMarker
    else none
  | .exponentMarker, c =>
    if c.isDigit then some .exponentDigits
    else if c = '+' ∨ c = '-' then some .exponentSign
    else none
  | .exponentSign, c => if c.isDigit then some .exponentDigits else none
  | .exponentDigits, c => if c.isDigit then some .exponentDigits else none

/-- The value of a literal. -/
inductive Value where
  | int (value : Int64)
  | double (value : Double)
deriving DecidableEq, Repr, Inhabited

/-- Why the characters read so far have no value. -/
inductive Fault where
  | incomplete
  | outOfRange
deriving DecidableEq, Repr, Inhabited

def Fault.message : Fault → String
  | .incomplete => "input is not a complete numeric literal"
  | .outOfRange => "integer literal does not fit in 64 bits"

/-- The number that a row of digits denotes. -/
def digitsValue (cs : List Char) : Nat :=
  cs.foldl (fun n c => 10 * n + (c.toNat - '0'.toNat)) 0

/-- The power of ten that an exponent with its optional sign denotes. -/
def exponentValue : List Char → Int
  | '-' :: cs => -(digitsValue cs : Int)
  | '+' :: cs => digitsValue cs
  | cs => digitsValue cs

/-- The double that a literal with a point or an exponent denotes. -/
def doubleValue (cs : List Char) : Double :=
  let whole := cs.takeWhile Char.isDigit
  let afterWhole := cs.dropWhile Char.isDigit
  let (fraction, afterFraction) :=
    match afterWhole with
    | '.' :: ds => (ds.takeWhile Char.isDigit, ds.dropWhile Char.isDigit)
    | ds => ([], ds)
  let exponent := exponentValue (afterFraction.drop 1)
  Double.ofDecimal false (digitsValue (whole ++ fraction)) (exponent - fraction.length)

end Literal

/-- The automaton together with the characters it has accepted. -/
structure Recognizer where
  state : Literal.State := .start
  text : String := ""
deriving DecidableEq, Repr, Inhabited

namespace Recognizer

open Literal

/-- The recognizer after one more character, unless it refuses it. -/
def read? (r : Recognizer) (c : Char) : Option Recognizer :=
  (r.state.next? c).map fun s => ⟨s, r.text.push c⟩

/-- Reads as far as the literal can go on; the second part is what is left. -/
def readAll (r : Recognizer) : List Char → Recognizer × List Char
  | [] => (r, [])
  | c :: cs =>
    match r.read? c with
    | some r' => readAll r' cs
    | none => (r, c :: cs)

def isInteger (r : Recognizer) : Bool := r.state == .integerDigits

def isDouble (r : Recognizer) : Bool :=
  r.state == .fractionDigits || r.state == .exponentDigits

/-- Is the text read so far a literal? -/
def isAccepted (r : Recognizer) : Bool := r.isInteger || r.isDouble

/-- The value of the text read so far. -/
def value (r : Recognizer) : Except Fault Value :=
  if r.isInteger then
    let n := digitsValue r.text.toList
    if n < 0x8000000000000000 then .ok (.int (Int64.ofNat n)) else .error .outOfRange
  else if r.isDouble then .ok (.double (doubleValue r.text.toList))
  else .error .incomplete

end Recognizer

end ScalarLang
