import ScalarLang.Ir.Builder
import ScalarLang.Ir.Verify

/-!
# From definitions to functions

A definition is lowered into a function of a module: an expression becomes instructions behind the
cursor and an operand for its value.  A conditional ends the current block and goes on in a new one,
where a `phi` joins the values of both branches.  Types are compared again on the way, and the finished
function is verified, so that a module only holds functions that passed.

* `Ir.LoweringError` — why a definition is refused.
* `Ir.lower` — the instructions of an expression.
* `Ir.lowerBody` — the function of a definition whose declaration is in the module already.
* `Ir.Module.generate` — adds the function of a definition to a module, or leaves the module as it was.
-/

namespace ScalarLang

namespace Ir

/-- Why a definition is refused.  A definition that was read from source text is only ever refused for
a type error, and only for a function that is there already. -/
inductive LoweringError where
  | unboundVariable (name : String) (span : Span)
  | unresolvedType (span : Span)
  | typing (error : TypeError)
  | verify (error : VerifyError)
deriving DecidableEq, Repr, Inhabited

namespace LoweringError

def span? : LoweringError → Option Span
  | unboundVariable _ span => some span
  | unresolvedType span => some span
  | typing e => some e.span
  | verify _ => none

def message : LoweringError → String
  | unboundVariable name _ =>
    "internal error: variable '" ++ name ++ "' is not bound in this function"
  | unresolvedType _ =>
    "internal error: expression reached code generation with an unresolved type"
  | typing e => e.message
  | verify e => e.message

end LoweringError

/-- Adds to the function being built, or refuses. -/
abbrev Lower := EStateM LoweringError Builder

/-- The type in which values of a number type are computed; an unresolved type is refused. -/
def lowerTy (ty : NumType) (span : Span) : Except LoweringError Ty :=
  match Ty.ofNum? ty with
  | some ty => .ok ty
  | none => .error (.unresolvedType span)

namespace Lower

/-- Takes over a result that does not build anything. -/
def check {α : Type} (result : Except LoweringError α) : Lower α :=
  match result with
  | .ok a => pure a
  | .error e => throw e

/-- Builds something and gives what the builder gives. -/
def build {α : Type} (step : Builder → α × Builder) : Lower α := modifyGet step

end Lower

open Lower

/-- The parameter that a name means: the last one of that name. -/
def parameterIndex? (params : List ScalarLang.Param) (name : String) : Option Nat :=
  (params.zipIdx.reverse.find? fun e => e.1.name == name).map Prod.snd

/-- The value of a literal. -/
def literalOperand : Literal.Value → Operand
  | .int v => .int v
  | .double v => .double v

/-! ### Operations -/

/-- A comparison of integers is one or zero. -/
def lowerIntTest (pred : IntPred) (lhs rhs : Operand) (name : String) : Lower Operand := do
  let bit ← build (·.icmp pred lhs rhs name)
  build (·.zext bit "bool_to_int")

/-- A comparison of doubles is one or zero as a double. -/
def lowerDoubleTest (pred : FloatPred) (lhs rhs : Operand) (name : String) : Lower Operand := do
  let bit ← build (·.fcmp pred lhs rhs name)
  build (·.uitofp bit "bool_to_double")

def lowerIntOp (lhs rhs : Operand) : Operator → Lower Operand
  | .add => build (·.binary .add lhs rhs "int_add")
  | .sub => build (·.binary .sub lhs rhs "int_sub")
  | .mul => build (·.binary .mul lhs rhs "int_mul")
  | .div => build (·.binary .sdiv lhs rhs "int_div")
  | .lt => lowerIntTest .slt lhs rhs "int_less_than"
  | .gt => lowerIntTest .sgt lhs rhs "int_greater_than"
  | .le => lowerIntTest .sle lhs rhs "int_equal_or_less_than"
  | .ge => lowerIntTest .sge lhs rhs "int_equal_or_greater_than"
  | .eq => lowerIntTest .eq lhs rhs "int_equal"
  | .ne => lowerIntTest .ne lhs rhs "int_not_equal"

def lowerDoubleOp (lhs rhs : Operand) : Operator → Lower Operand
  | .add => build (·.binary .fadd lhs rhs "double_add")
  | .sub => build (·.binary .fsub lhs rhs "double_sub")
  | .mul => build (·.binary .fmul lhs rhs "double_mul")
  | .div => build (·.binary .fdiv lhs rhs "double_div")
  | .lt => lowerDoubleTest .ult lhs rhs "double_less_than"
  | .gt => lowerDoubleTest .ugt lhs rhs "double_greater_than"
  | .le => lowerDoubleTest .ule lhs rhs "double_equal_or_less_than"
  | .ge => lowerDoubleTest .uge lhs rhs "double_equal_or_greater_than"
  | .eq => lowerDoubleTest .ueq lhs rhs "double_equal"
  | .ne => lowerDoubleTest .une lhs rhs "double_not_equal"

/-- An operation in the type that its node was given. -/
def lowerOp (tag : Expr.Tag) (lhs rhs : Operand) (op : Operator) : Lower Operand :=
  match tag.ty with
  | .int => lowerIntOp lhs rhs op
  | .double => lowerDoubleOp lhs rhs op
  | .unresolved => throw (.unresolvedType tag.span)

/-- The truth of a condition: is it different from zero? -/
def lowerCondition (condition : Expr) (value : Operand) : Lower Operand :=
  match condition.ty with
  | .int => build (·.icmp .ne value (.int 0) "if_condition")
  | .double => build (·.fcmp .une value (.double .zero) "if_condition")
  | .unresolved => throw (.unresolvedType condition.span)

/-! ### Expressions -/

mutual

/-- Adds the instructions of an expression behind the cursor and gives its value. -/
def lower (m : Module) (params : List ScalarLang.Param) : Expr → Lower Operand
  | .literal value tag => do
    let _ ← check (lowerTy tag.ty tag.span)
    return literalOperand value
  | .var name tag => do
    let _ ← check (lowerTy tag.ty tag.span)
    match parameterIndex? params name with
    | some index => return .arg index
    | none => throw (.unboundVariable name tag.span)
  | .binary op lhs rhs tag => do
    let _ ← check (lowerTy tag.ty tag.span)
    let l ← lower m params lhs
    let r ← lower m params rhs
    if lhs.ty = tag.ty ∧ rhs.ty = tag.ty then lowerOp tag l r op
    else throw (.typing (.mixedOperands op lhs.ty rhs.ty tag.span))
  | .call callee args tag => do
    let _ ← check (lowerTy tag.ty tag.span)
    match m.get? callee with
    | none => throw (.typing (.unknownFunction callee tag.span))
    | some target =>
      if target.params.length = args.length then do
        let values ← lowerArgs m params callee 0 args target.params
        build (·.call callee target.ret values "calltmp")
      else
        throw (.typing (.arityMismatch callee target.params.length args.length tag.span))
  | .conditional condition onTrue onFalse tag => do
    let ty ← check (lowerTy tag.ty tag.span)
    let value ← lower m params condition
    let test ← lowerCondition condition value
    if onTrue.ty = tag.ty ∧ onFalse.ty = tag.ty then do
      let blocks ← build (·.branch test)
      let trueValue ← lower m params onTrue
      -- a conditional inside the branch has moved the cursor to a join of its own
      let trueExit := (← get).cursor?.getD blocks.onTrue
      modify (·.moveTo (.br blocks.join) blocks.onFalse)
      let falseValue ← lower m params onFalse
      let falseExit := (← get).cursor?.getD blocks.onFalse
      modify (·.moveTo (.br blocks.join) blocks.join)
      build (·.phi ty [(trueValue, trueExit), (falseValue, falseExit)] "iftmp")
    else throw (.typing (.mixedBranches onTrue.ty onFalse.ty tag.span))

/-- Adds the instructions of arguments and gives their values; each is compared with its parameter
before its instructions are added. -/
def lowerArgs (m : Module) (params : List ScalarLang.Param) (callee : String) :
    Nat → List Expr → List Param → Lower (List Operand)
  | index, arg :: args, param :: targets => do
    let ty ← check (lowerTy arg.ty arg.span)
    if ty = param.ty then do
      let value ← lower m params arg
      let values ← lowerArgs m params callee (index + 1) args targets
      return value :: values
    else
      throw (.typing (.argumentType callee index (param.ty.toNum?.getD .unresolved) arg.ty arg.span))
  | _, _, _ => return []

end

/-! ### Functions -/

/-- A parameter with the type in which it is computed. -/
def lowerParam (p : ScalarLang.Param) : Except LoweringError Param := do
  let ty ← lowerTy p.ty p.span
  return ⟨p.name, ty⟩

/-- The declaration of a prototype. -/
def declare (p : Prototype) : Except LoweringError Function := do
  let params ← p.params.mapM lowerParam
  let ret ← lowerTy p.ret p.span
  return Function.declare p.name params ret

/-- The function of a definition, whose declaration is in the module already. -/
def lowerBody (m : Module) (declaration : Function) (d : Definition) :
    Except LoweringError Function :=
  let b : Builder := { function := declaration }
  let (entry, b) := b.appendNewBlock "entry"
  if d.body.ty = d.proto.ret then
    match lower m d.proto.params d.body (b.position entry) with
    | .error e _ => .error e
    | .ok value b =>
      let f := (b.terminate (.ret value)).function
      match f.verify m with
      | .ok () => .ok f
      | .error e => .error (.verify e)
  else .error (.typing (.returnType d.proto.name d.proto.ret d.body.ty d.body.span))

/-- Adds the function of a definition to a module.  Its declaration goes in first, so that it can call
itself; a definition that is refused is taken out again. -/
def Module.generate (m : Module) (d : Definition) : Except LoweringError Function × Module :=
  if m.contains d.proto.name then
    (.error (.typing (.redefinition d.proto.name d.proto.span)), m)
  else
    match declare d.proto with
    | .error e => (.error e, m)
    | .ok declaration =>
      let m := m.insert declaration
      match lowerBody m declaration d with
      | .ok f => (.ok f, m.insert f)
      | .error e => (.error e, m.erase d.proto.name)

end Ir

end ScalarLang
