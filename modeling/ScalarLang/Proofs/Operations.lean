import ScalarLang.Ir.Lowering
import ScalarLang.Proofs.Verified

/-!
# The instructions of an operation

An operation becomes one instruction of arithmetic, or a comparison and the instruction that makes a number
of its truth value.  Which one depends on the operator and on the type, but what is said about operations
elsewhere only depends on which of the two it is.

* `IsPlain` — a name of letters, digits and underscores.
* `Ir.Arith.operator`, `Ir.Test.operator` — the operator that an instruction computes.
* `Ir.Test` — a comparison, of integers or of doubles.
* `Ir.Realizes`, `Ir.lowerOp_realizes` — the instructions of an operation.
-/

namespace ScalarLang

/-- Letters, digits and the underscore. -/
def isPlainChar (c : Char) : Bool := c.isAlphanum || c == '_'

/-- The characters of the name are plain. -/
def IsPlain (s : String) : Prop := s.toList.all isPlainChar = true

instance (s : String) : Decidable (IsPlain s) :=
  inferInstanceAs (Decidable (s.toList.all isPlainChar = true))

namespace Ir

open Lower

/-! ### Operators -/

/-- The operator that an instruction computes. -/
def Arith.operator : Arith → Operator
  | add | fadd => .add
  | sub | fsub => .sub
  | mul | fmul => .mul
  | sdiv | fdiv => .div

/-- The operator that a test of integers decides. -/
def IntPred.operator : IntPred → Operator
  | eq => .eq
  | ne => .ne
  | slt => .lt
  | sgt => .gt
  | sle => .le
  | sge => .ge

/-- The operator that a test of doubles decides. -/
def FloatPred.operator : FloatPred → Operator
  | ueq => .eq
  | une => .ne
  | ult => .lt
  | ugt => .gt
  | ule => .le
  | uge => .ge

/-- A comparison, of integers or of doubles. -/
inductive Test where
  | int (pred : IntPred)
  | double (pred : FloatPred)

namespace Test

variable {m : Module} {use any : Operand → Ty → Prop} {preds : List BlockId} {name : String}
  {l r v : Operand}

/-- The type of the operands, and of the number made of the truth value. -/
def ty : Test → Ty
  | int _ => .i64
  | double _ => .double

def operator : Test → Operator
  | int pred => pred.operator
  | double pred => pred.operator

/-- The instruction that compares. -/
def compare (l r : Operand) : Test → Op
  | int pred => .icmp pred l r
  | double pred => .fcmp pred l r

/-- The instruction that makes a number of the truth value. -/
def widen (bit : Operand) : Test → Op
  | int _ => .zext bit
  | double _ => .uitofp bit

@[simp] theorem isPhi_compare (t : Test) : (t.compare l r).isPhi = false := by cases t <;> rfl

@[simp] theorem isPhi_widen (t : Test) : (t.widen v).isPhi = false := by cases t <;> rfl

theorem typedBy_compare_iff {t : Test} :
    (⟨name, .i1, t.compare l r⟩ : Inst).TypedBy m use any preds ↔ use l t.ty ∧ use r t.ty := by
  cases t <;> simp [Inst.TypedBy, compare, ty]

theorem typedBy_widen_iff {t : Test} :
    (⟨name, t.ty, t.widen v⟩ : Inst).TypedBy m use any preds ↔ use v .i1 := by
  cases t <;> simp [Inst.TypedBy, widen, ty]

end Test

/-! ### Operations -/

/-- `x` builds the instructions of an operator between operands of type `ty`: one of arithmetic, or a
comparison and another that makes its truth value a number of that type.  They ask for plain names. -/
inductive Realizes (ty : Ty) (l r : Operand) (op : Operator) : Lower Operand → Prop
  | arith {code : Arith} {name : String} (hty : code.ty = ty) (hop : code.operator = op)
      (hname : IsPlain name) : Realizes ty l r op (build (·.push name ty (.binary code l r)))
  | test {t : Test} {name number : String} (hty : t.ty = ty) (hop : t.operator = op)
      (hname : IsPlain name) (hnumber : IsPlain number) :
      Realizes ty l r op (do
        let bit ← build (·.push name .i1 (t.compare l r))
        build (·.push number ty (t.widen bit)))

variable {l r : Operand} {name : String}

theorem lowerIntTest_realizes (pred : IntPred) (hname : IsPlain name) :
    Realizes .i64 l r pred.operator (lowerIntTest pred l r name) :=
  .test (t := .int pred) rfl rfl hname (by decide)

theorem lowerDoubleTest_realizes (pred : FloatPred) (hname : IsPlain name) :
    Realizes .double l r pred.operator (lowerDoubleTest pred l r name) :=
  .test (t := .double pred) rfl rfl hname (by decide)

/-- **An operation is one instruction of arithmetic or two of a comparison**, of the type that its node was
given. -/
theorem lowerOp_realizes {tag : Expr.Tag} {ty : Ty} (op : Operator) (hty : Ty.ofNum? tag.ty = some ty) :
    Realizes ty l r op (lowerOp tag l r op) := by
  unfold lowerOp
  cases htag : tag.ty with
  | int =>
    rw [htag] at hty
    cases hty
    cases op with
    | add => exact .arith rfl rfl (by decide)
    | sub => exact .arith rfl rfl (by decide)
    | mul => exact .arith rfl rfl (by decide)
    | div => exact .arith rfl rfl (by decide)
    | lt => exact lowerIntTest_realizes .slt (by decide)
    | gt => exact lowerIntTest_realizes .sgt (by decide)
    | le => exact lowerIntTest_realizes .sle (by decide)
    | ge => exact lowerIntTest_realizes .sge (by decide)
    | eq => exact lowerIntTest_realizes .eq (by decide)
    | ne => exact lowerIntTest_realizes .ne (by decide)
  | double =>
    rw [htag] at hty
    cases hty
    cases op with
    | add => exact .arith rfl rfl (by decide)
    | sub => exact .arith rfl rfl (by decide)
    | mul => exact .arith rfl rfl (by decide)
    | div => exact .arith rfl rfl (by decide)
    | lt => exact lowerDoubleTest_realizes .ult (by decide)
    | gt => exact lowerDoubleTest_realizes .ugt (by decide)
    | le => exact lowerDoubleTest_realizes .ule (by decide)
    | ge => exact lowerDoubleTest_realizes .uge (by decide)
    | eq => exact lowerDoubleTest_realizes .ueq (by decide)
    | ne => exact lowerDoubleTest_realizes .une (by decide)
  | unresolved =>
    rw [htag] at hty
    cases hty

end Ir

end ScalarLang
