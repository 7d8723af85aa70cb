import ScalarLang.Ir.Text

/-!
# Values and faults

* `Machine.Value` — what instructions compute: a truth value, an integer or a double.
* `Machine.Fault` — why a run ends without a value, and the wording of each reason.
-/

namespace ScalarLang

namespace Machine

inductive Value where
  | bool (value : Bool)
  | int (value : Int64)
  | double (value : Double)
deriving DecidableEq, Repr, Inhabited

namespace Value

def ty : Value → Ir.Ty
  | bool _ => .i1
  | int _ => .i64
  | double _ => .double

/-- The number type of a value; a truth value has none. -/
def numType? (v : Value) : Option NumType := v.ty.toNum?

def toInt? : Value → Option Int64
  | int v => some v
  | _ => none

def toDouble? : Value → Option Double
  | double v => some v
  | _ => none

def toBool? : Value → Option Bool
  | bool v => some v
  | _ => none

/-- A value as it is shown to a reader. -/
def describe : Value → String
  | bool true => "true"
  | bool false => "false"
  | int v => v.toInt.repr
  | double v => v.describe

end Value

/-- Why a run ends without a value.  The first seven arise from functions that are not well formed,
the next two from values of a wrong type. -/
inductive Fault where
  | missingArgument (index : Nat) (function : String)
  | notComputed (inst : Nat) (function : String)
  | noPendingCall (function : String)
  | missingBlock (block : Nat) (function : String)
  | missingInst (inst : Nat) (function : String)
  | noTerminator (label function : String)
  | uncoveredEdge (phi : String)
  | wrongKind (expected found : Ir.Ty)
  | wrongArgument (param function : String) (expected found : Ir.Ty)
  | stackOverflow (bound : Nat)
  | divisionByZero
  | functionNotFound (name : String)
  | notDefined (name : String)
  | arityMismatch (function : String) (expected found : Nat)
  | outOfFuel
deriving DecidableEq, Repr, Inhabited

def Fault.message : Fault → String
  | missingArgument index function =>
    "runtime error: argument " ++ index.repr ++ " out of range in @" ++ function
  | notComputed inst function =>
    "runtime error: instruction " ++ inst.repr ++ " used before it was computed in @" ++ function
  | noPendingCall function => "runtime error: no pending call to resume in @" ++ function
  | missingBlock block function =>
    "runtime error: block " ++ block.repr ++ " does not exist in @" ++ function
  | missingInst inst function =>
    "runtime error: instruction " ++ inst.repr ++ " does not exist in @" ++ function
  | noTerminator label function =>
    "runtime error: block '" ++ label ++ "' in @" ++ function ++ " has no terminator"
  | uncoveredEdge phi =>
    "runtime error: phi '%" ++ phi ++ "' has no incoming value for the predecessor block"
  | wrongKind expected found =>
    "type error at runtime: expected " ++ expected.text ++ ", got " ++ found.text
  | wrongArgument param function expected found =>
    "type error at runtime: parameter %" ++ param ++ " of @" ++ function ++ " is " ++ expected.text
      ++ ", got " ++ found.text
  | stackOverflow bound => "stack overflow: call depth exceeded " ++ bound.repr
  | divisionByZero => "division by zero"
  | functionNotFound name => "function not found: " ++ name
  | notDefined name => "function '" ++ name ++ "' is declared but has no body"
  | arityMismatch function expected found =>
    "function '" ++ function ++ "' takes " ++ expected.repr ++ " argument(s), " ++ found.repr
      ++ " given"
  | outOfFuel => "evaluation did not end within its budget of steps"

end Machine

end ScalarLang
