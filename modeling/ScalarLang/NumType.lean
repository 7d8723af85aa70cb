/-!
# The two number types

Every expression is an `int` or a `double`; a node that has not been checked yet is unresolved.
-/

namespace ScalarLang

inductive NumType where
  | unresolved
  | int
  | double
deriving DecidableEq, Repr, Inhabited

namespace NumType

/-- The type of an operation on operands of types `a` and `b`. -/
def combine (a b : NumType) : NumType :=
  match a, b with
  | double, _ => double
  | _, double => double
  | int, int => int
  | _, _ => unresolved

def isResolved (t : NumType) : Bool := t != unresolved

/-- The reserved word that names a type in source text. -/
def keyword? : NumType → Option String
  | int => some "int"
  | double => some "double"
  | unresolved => none

/-- A type as messages name it. -/
def describe (t : NumType) : String := t.keyword?.getD "<unresolved>"

/-- Two operands of one type have that type together. -/
@[simp] theorem combine_self (t : NumType) : t.combine t = t := by
  cases t <;> rfl

end NumType

end ScalarLang
