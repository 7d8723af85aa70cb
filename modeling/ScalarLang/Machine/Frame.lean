import ScalarLang.Machine.Value

/-!
# Activations

A frame is one activation of a function: its arguments, the values computed so far, and where it
stands.

* `Machine.Frame.get` — the value of an operand.
* `Machine.Frame.perform` — what the instruction at hand amounts to: a value, or a call.
* `Machine.Frame.step` — performs one instruction or follows the end of a block.
* `Machine.Frame.resume` — goes on behind a call with its result.
-/

namespace ScalarLang

namespace Machine

open Ir

/-! ### Arithmetic -/

def expectInt (v : Value) : Except Fault Int64 :=
  match v with
  | .int x => .ok x
  | _ => .error (.wrongKind .i64 v.ty)

def expectDouble (v : Value) : Except Fault Double :=
  match v with
  | .double x => .ok x
  | _ => .error (.wrongKind .double v.ty)

def expectBool (v : Value) : Except Fault Bool :=
  match v with
  | .bool x => .ok x
  | _ => .error (.wrongKind .i1 v.ty)

/-- An operation on two integers; results wrap around. -/
def intArith (op : Int64 → Int64 → Int64) (a b : Value) : Except Fault Value := do
  let x ← expectInt a
  let y ← expectInt b
  return .int (op x y)

def doubleArith (op : Double → Double → Double) (a b : Value) : Except Fault Value := do
  let x ← expectDouble a
  let y ← expectDouble b
  return .double (op x y)

/-- Division goes toward zero; the quotient of the least integer and minus one wraps around. -/
def divide (a b : Value) : Except Fault Value := do
  let x ← expectInt a
  let y ← expectInt b
  if y = 0 then .error .divisionByZero else return .int (x / y)

def arith : Arith → Value → Value → Except Fault Value
  | .add => intArith (· + ·)
  | .sub => intArith (· - ·)
  | .mul => intArith (· * ·)
  | .sdiv => divide
  | .fadd => doubleArith Double.add
  | .fsub => doubleArith Double.sub
  | .fmul => doubleArith Double.mul
  | .fdiv => doubleArith Double.div

def testInt : IntPred → Int64 → Int64 → Bool
  | .eq, a, b => a == b
  | .ne, a, b => a != b
  | .slt, a, b => a < b
  | .sgt, a, b => b < a
  | .sle, a, b => a ≤ b
  | .sge, a, b => b ≤ a

/-- A comparison holds whenever an operand is not a number. -/
def testDouble (pred : FloatPred) (a b : Double) : Bool :=
  a.isNaN || b.isNaN ||
    match pred with
    | .ueq => a.numEq b
    | .une => !a.numEq b
    | .ult => a.numLt b
    | .ugt => b.numLt a
    | .ule => !b.numLt a
    | .uge => !a.numLt b

/-! ### Frames -/

/-- One activation of a function.  `predecessor?` is the block that was left for this one. -/
structure Frame where
  function : Function
  args : List Value
  values : Array (Option Value)
  block : BlockId
  pos : Nat := 0
  predecessor? : Option BlockId := none
deriving DecidableEq, Repr, Inhabited

namespace Frame

/-- The activation of a function at its entry. -/
def start (f : Function) (args : List Value) : Except Fault Frame :=
  match f.entry? with
  | some block =>
    .ok { function := f, args, values := Array.replicate f.insts.size none, block }
  | none => .error (.notDefined f.name)

/-- The value of an operand. -/
def get (fr : Frame) : Operand → Except Fault Value
  | .int v => .ok (.int v)
  | .double v => .ok (.double v)
  | .arg index =>
    match fr.args[index]? with
    | some v => .ok v
    | none => .error (.missingArgument index fr.function.name)
  | .inst id =>
    match fr.values[id]? with
    | some (some v) => .ok v
    | _ => .error (.notComputed id fr.function.name)

/-- Records the value of an instruction. -/
def set (fr : Frame) (id : InstId) (v : Value) : Frame :=
  match fr with
  | ⟨function, args, values, block, pos, predecessor?⟩ =>
    ⟨function, args, values.setIfInBounds id (some v), block, pos, predecessor?⟩

/-- Goes to the start of a block. -/
def jump (fr : Frame) (target : BlockId) : Frame :=
  { fr with predecessor? := some fr.block, block := target, pos := 0 }

/-- Goes on behind the call at hand with its result. -/
def resume (fr : Frame) (v : Value) : Except Fault Frame :=
  match (fr.function.block? fr.block).bind fun b => b.insts[fr.pos]? with
  | some id =>
    let fr := fr.set id v
    .ok { fr with pos := fr.pos + 1 }
  | none => .error (.noPendingCall fr.function.name)

/-- What an instruction amounts to. -/
inductive Action where
  | value (v : Value)
  | call (callee : String) (args : List Value)
deriving DecidableEq, Repr, Inhabited

/-- The entry of a `phi` for the edge by which its block was entered. -/
def incoming (fr : Frame) (name : String) (arms : List (Operand × BlockId)) :
    Except Fault Value :=
  match arms.find? fun arm => some arm.2 == fr.predecessor? with
  | some arm => fr.get arm.1
  | none => .error (.uncoveredEdge name)

/-- Performs an instruction. -/
def perform (fr : Frame) (i : Inst) : Except Fault Action :=
  match i.op with
  | .binary code lhs rhs => do
    let a ← fr.get lhs
    let b ← fr.get rhs
    return .value (← arith code a b)
  | .icmp pred lhs rhs => do
    let a ← expectInt (← fr.get lhs)
    let b ← expectInt (← fr.get rhs)
    return .value (.bool (testInt pred a b))
  | .fcmp pred lhs rhs => do
    let a ← expectDouble (← fr.get lhs)
    let b ← expectDouble (← fr.get rhs)
    return .value (.bool (testDouble pred a b))
  | .zext v => do
    let bit ← expectBool (← fr.get v)
    return .value (.int (if bit then 1 else 0))
  | .uitofp v => do
    let bit ← expectBool (← fr.get v)
    return .value (.double (if bit then .one else .zero))
  | .call callee args => do
    let values ← args.mapM fr.get
    return .call callee values
  | .phi arms => do
    let v ← fr.incoming i.name arms
    return .value v

/-- What one step leads to. -/
inductive Step where
  | computed (fr : Frame)
  | jumped (fr : Frame)
  | call (callee : String) (args : List Value)
  | returned (v : Value)
deriving DecidableEq, Repr, Inhabited

/-- Follows the end of a block. -/
def follow (fr : Frame) : Terminator → Except Fault Step
  | .ret v => do
    let result ← fr.get v
    return .returned result
  | .br target => .ok (.jumped (fr.jump target))
  | .condBr cond onTrue onFalse => do
    let taken ← expectBool (← fr.get cond)
    return .jumped (fr.jump (if taken then onTrue else onFalse))

/-- Performs the instruction at hand, or follows the end of the block. -/
def step (fr : Frame) : Except Fault Step :=
  match fr.function.block? fr.block with
  | none => .error (.missingBlock fr.block fr.function.name)
  | some b =>
    match b.insts[fr.pos]? with
    | some id =>
      match fr.function.inst? id with
      | none => .error (.missingInst id fr.function.name)
      | some i => do
        match ← fr.perform i with
        | .value v =>
          let fr := fr.set id v
          return .computed { fr with pos := fr.pos + 1 }
        | .call callee args => return .call callee args
    | none =>
      match b.terminator? with
      | some t => fr.follow t
      | none => .error (.noTerminator b.label fr.function.name)

end Frame

end Machine

end ScalarLang
