import ScalarLang.Expr
import ScalarLang.Proofs.Operations
import ScalarLang.Proofs.Runs

/-!
# What expressions mean

The meaning of an expression is given by recursion on it, with no blocks, instructions or frames:
operands and arguments are evaluated from left to right, an operator is applied to values, and of a
conditional only the branch that is chosen is evaluated.  Integers are whole numbers that wrap around,
and doubles are compared by their places on the number line.

* `Operator.apply` — the meaning of the operators.
* `Machine.Value.isTrue` — the choice that a condition makes.
* `Expr.eval` — the meaning of an expression, given that of the calls in it.
* `Program.invoke` — the meaning of a call when only so many activations fit.
* `Machine.arith_eq_apply`, `Machine.testInt_eq_holds`, `Machine.testDouble_eq_holds` — instructions compute
  what operators mean.
-/

namespace ScalarLang

open Machine

/-! ### Operators -/

namespace Operator

/-- Does a comparison hold between two whole numbers? -/
def holds (op : Operator) (a b : Int) : Bool :=
  match op with
  | lt => a < b
  | gt => b < a
  | le => a ≤ b
  | ge => b ≤ a
  | eq => a = b
  | ne => a ≠ b
  | add | sub | mul | div => false

/-- An operator between integers, which are whole numbers modulo `2 ^ 64`. -/
def onInts (op : Operator) (a b : Int64) : Except Fault Int64 :=
  match op with
  | add => .ok (.ofInt (a.toInt + b.toInt))
  | sub => .ok (.ofInt (a.toInt - b.toInt))
  | mul => .ok (.ofInt (a.toInt * b.toInt))
  | div => if b.toInt = 0 then .error .divisionByZero else .ok (.ofInt (a.toInt.tdiv b.toInt))
  | lt | gt | le | ge | eq | ne => .ok (if op.holds a.toInt b.toInt then 1 else 0)

/-- An operator between doubles.  What is not a number stands in every relation to everything. -/
def onDoubles (op : Operator) (a b : Double) : Double :=
  match op with
  | add => a.add b
  | sub => a.sub b
  | mul => a.mul b
  | div => a.div b
  | lt | gt | le | ge | eq | ne =>
    if a.isNaN || b.isNaN || op.holds a.rank b.rank then .one else .zero

/-- An operator between two values of one type. -/
def apply (op : Operator) : Value → Value → Except Fault Value
  | .int a, .int b => do
    let x ← op.onInts a b
    return .int x
  | .double a, .double b => return .double (op.onDoubles a b)
  | a, b => .error (.wrongKind a.ty b.ty)

/-- The result of an operator has the type of its operands. -/
theorem ty_of_apply {op : Operator} {a b v : Value} (h : op.apply a b = .ok v) : v.ty = a.ty := by
  unfold apply at h
  split at h
  · obtain ⟨x, -, hx⟩ := bind_eq_ok_iff.1 h
    rw [← pure_eq_ok_iff.1 hx]
    rfl
  · rw [← pure_eq_ok_iff.1 h]
    rfl
  · cases h

end Operator

/-! ### Expressions -/

/-- The choice that a condition makes: is it different from zero?  What is not a number is. -/
def Machine.Value.isTrue : Value → Bool
  | .bool b => b
  | .int x => x.toInt ≠ 0
  | .double x => !x.isZero

/-- The value of a literal. -/
def Literal.Value.toValue : Literal.Value → Machine.Value
  | .int x => .int x
  | .double x => .double x

namespace Expr

mutual

/-- The value of an expression, where names stand for the values that `env` gives and functions for
what `call` gives. -/
def eval (call : String → List Value → Except Fault Value) (env : String → Value) :
    Expr → Except Fault Value
  | literal value _ => .ok value.toValue
  | var name _ => .ok (env name)
  | binary op lhs rhs _ => do
    let a ← eval call env lhs
    let b ← eval call env rhs
    op.apply a b
  | .call callee args _ => do
    let values ← evalAll call env args
    call callee values
  | conditional condition onTrue onFalse _ => do
    let c ← eval call env condition
    if c.isTrue then eval call env onTrue else eval call env onFalse

/-- The values of expressions, from left to right. -/
def evalAll (call : String → List Value → Except Fault Value) (env : String → Value) :
    List Expr → Except Fault (List Value)
  | [] => .ok []
  | e :: es => do
    let v ← eval call env e
    let vs ← evalAll call env es
    return v :: vs

end

end Expr

/-! ### Programs -/

/-- The values that the names in the body of a definition stand for: those of the parameters.  No other
name occurs in a body that is typed. -/
def Definition.env (d : Definition) (args : List Value) (name : String) : Value :=
  (((d.proto.params.map Param.name).zip args).lookup name).getD default

namespace Program

/-- The definition that a name means. -/
def find? (ds : List Definition) (name : String) : Option Definition :=
  ds.find? fun d => d.proto.name == name

/-- The result of a call when `n` more activations fit and there can be `bound` of them in all. -/
def invoke (ds : List Definition) (bound : Nat) : Nat → String → List Value → Except Fault Value
  | 0, _, _ => .error (.stackOverflow bound)
  | n + 1, name, args =>
    match find? ds name with
    | none => .error (.functionNotFound name)
    | some d => d.body.eval (invoke ds bound n) (d.env args)

end Program

/-! ### Instructions compute what operators mean -/

theorem Double.toNat_bits (d : Double) :
    d.bits.toNat = (if d.isNegative then signWeight else 0) + d.magnitudeBits := by
  have hlt := d.bits.toNat_lt
  by_cases h : d.isNegative
  · rw [if_pos h]
    simp only [isNegative, decide_eq_true_eq] at h
    unfold magnitudeBits
    unfold signWeight at h ⊢
    omega
  · rw [if_neg h]
    simp only [isNegative, decide_eq_true_eq] at h
    unfold magnitudeBits
    unfold signWeight at h ⊢
    omega

/-- Numbers are equal if they have one place on the number line. -/
theorem Double.numEq_eq_rank {a b : Double} (ha : a.isNaN = false) (hb : b.isNaN = false) :
    a.numEq b = decide (a.rank = b.rank) := by
  have hbits : (a.bits == b.bits) = decide (a.bits.toNat = b.bits.toNat) := by
    rw [Bool.eq_iff_iff, beq_iff_eq, decide_eq_true_eq, UInt64.toNat_inj]
  have hpos : 0 < signWeight := by decide
  have hlta : a.magnitudeBits < signWeight := Nat.mod_lt _ hpos
  have hltb : b.magnitudeBits < signWeight := Nat.mod_lt _ hpos
  rw [numEq, ha, hb, hbits, a.toNat_bits, b.toNat_bits, rank, rank, isZero, isZero, Bool.eq_iff_iff]
  cases a.isNegative <;> cases b.isNegative <;> simp <;> omega

theorem Double.isZero_of_isNaN {d : Double} (h : d.isNaN = true) : d.isZero = false := by
  simp only [isNaN, decide_eq_true_eq] at h
  simp only [isZero, beq_eq_false_iff_ne]
  exact Nat.ne_of_gt (Nat.lt_of_le_of_lt (Nat.zero_le _) h)

/-- A number is zero if it equals zero, whatever its sign. -/
theorem Double.numEq_zero {d : Double} (h : d.isNaN = false) : d.numEq .zero = d.isZero := by
  rw [numEq_eq_rank h rfl, Bool.eq_iff_iff, decide_eq_true_eq, isZero, beq_iff_eq]
  show d.rank = 0 ↔ _
  unfold rank
  split <;> omega

namespace Machine

theorem int_div_eq (a b : Int64) : Int64.ofInt (a.toInt.tdiv b.toInt) = a / b := by
  rw [Int64.ofInt_eq_iff_bmod_eq_toInt, Int64.toInt_div]

theorem arith_int_eq_apply (code : Ir.Arith) (h : code.ty = .i64) (x y : Int64) :
    arith code (.int x) (.int y) = code.operator.apply (.int x) (.int y) := by
  cases code with
  | add =>
    show Except.ok (Value.int (x + y)) = .ok (.int (.ofInt (x.toInt + y.toInt)))
    rw [Int64.ofInt_add, Int64.ofInt_toInt, Int64.ofInt_toInt]
  | sub =>
    show Except.ok (Value.int (x - y)) = .ok (.int (.ofInt (x.toInt - y.toInt)))
    rw [Int64.ofInt_sub, Int64.ofInt_toInt, Int64.ofInt_toInt]
  | mul =>
    show Except.ok (Value.int (x * y)) = .ok (.int (.ofInt (x.toInt * y.toInt)))
    rw [Int64.ofInt_mul, Int64.ofInt_toInt, Int64.ofInt_toInt]
  | sdiv =>
    show (if y = 0 then _ else Except.ok (Value.int (x / y))) =
      (if y.toInt = 0 then Except.error Fault.divisionByZero
        else Except.ok (Int64.ofInt (x.toInt.tdiv y.toInt))) >>= fun z => .ok (.int z)
    have hzero : y.toInt = 0 ↔ y = 0 := Int64.toInt_inj (y := 0)
    by_cases hy : y = 0
    · rw [if_pos hy, if_pos (hzero.2 hy)]
      rfl
    · rw [if_neg hy, if_neg (fun h => hy (hzero.1 h)), int_div_eq]
      rfl
  | fadd => cases h
  | fsub => cases h
  | fmul => cases h
  | fdiv => cases h

/-- An instruction computes its operator. -/
theorem arith_eq_apply (code : Ir.Arith) {a b : Value} (ha : a.ty = code.ty) (hb : b.ty = code.ty) :
    arith code a b = code.operator.apply a b := by
  cases a with
  | bool x => cases code <;> cases ha
  | int x =>
    cases b with
    | int y => exact arith_int_eq_apply code ha.symm x y
    | bool y => cases ha.trans hb.symm
    | double y => cases ha.trans hb.symm
  | double x =>
    cases b with
    | double y => cases code <;> first | rfl | cases ha
    | bool y => cases ha.trans hb.symm
    | int y => cases ha.trans hb.symm

/-- A test of integers decides its operator between the numbers they stand for. -/
theorem testInt_eq_holds (pred : Ir.IntPred) (x y : Int64) :
    testInt pred x y = pred.operator.holds x.toInt y.toInt := by
  cases pred with
  | eq => simp [testInt, Ir.IntPred.operator, Operator.holds, Int64.toInt_inj, beq_eq_decide]
  | ne => simp [testInt, Ir.IntPred.operator, Operator.holds, Int64.toInt_inj, bne, beq_eq_decide]
  | slt => simp [testInt, Ir.IntPred.operator, Operator.holds, Int64.lt_iff_toInt_lt]
  | sgt => simp [testInt, Ir.IntPred.operator, Operator.holds, Int64.lt_iff_toInt_lt]
  | sle => simp [testInt, Ir.IntPred.operator, Operator.holds, Int64.le_iff_toInt_le]
  | sge => simp [testInt, Ir.IntPred.operator, Operator.holds, Int64.le_iff_toInt_le]

/-- A test of doubles decides its operator between their places, or holds because one of them is not a
number. -/
theorem testDouble_eq_holds (pred : Ir.FloatPred) (a b : Double) :
    testDouble pred a b = (a.isNaN || b.isNaN || pred.operator.holds a.rank b.rank) := by
  cases ha : a.isNaN with
  | true => simp [testDouble, ha]
  | false =>
    cases hb : b.isNaN with
    | true => simp [testDouble, hb]
    | false =>
      have heq := Double.numEq_eq_rank ha hb
      have hlt : a.numLt b = decide (a.rank < b.rank) := by simp [Double.numLt, ha, hb]
      have hgt : b.numLt a = decide (b.rank < a.rank) := by simp [Double.numLt, ha, hb]
      rw [Bool.eq_iff_iff]
      cases pred <;> simp [testDouble, ha, hb, heq, hlt, hgt, Ir.FloatPred.operator, Operator.holds]

theorem apply_operator_int (pred : Ir.IntPred) (x y : Int64) :
    pred.operator.apply (.int x) (.int y) = .ok (.int (if testInt pred x y then 1 else 0)) := by
  rw [testInt_eq_holds]
  cases pred <;> rfl

theorem apply_operator_double (pred : Ir.FloatPred) (x y : Double) :
    pred.operator.apply (.double x) (.double y) =
      .ok (.double (if testDouble pred x y then .one else .zero)) := by
  rw [testDouble_eq_holds]
  cases pred <;> rfl

/-- A condition is true if it is found different from zero. -/
theorem testInt_zero (x : Int64) : testInt .ne x 0 = (Value.int x).isTrue :=
  testInt_eq_holds .ne x 0

theorem testDouble_zero (x : Double) : testDouble .une x .zero = (Value.double x).isTrue := by
  have hzero : Double.zero.isNaN = false := rfl
  rw [testDouble, Value.isTrue, hzero]
  cases hx : x.isNaN with
  | true =>
    rw [Double.isZero_of_isNaN hx]
    rfl
  | false =>
    rw [Double.numEq_zero hx]
    rfl

end Machine

end ScalarLang
