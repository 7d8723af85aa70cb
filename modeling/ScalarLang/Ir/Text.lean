import ScalarLang.Double.Text
import ScalarLang.Ir.Basic

/-!
# Listings of functions

* `Ir.Function.text` — a function as a listing: `declare` with the types of its parameters if it has
  no blocks, and otherwise `define` with one paragraph for each block of the layout.

References that lead nowhere are shown as such, and instructions and blocks that are missing are left
out, so that every function has a listing.
-/

namespace ScalarLang

namespace Ir

def Ty.text : Ty → String
  | .i1 => "i1"
  | .i64 => "i64"
  | .double => "double"

namespace Function

def operandText (f : Function) : Operand → String
  | .int value => value.toInt.repr
  | .double value => value.constantText
  | .arg index =>
    match f.params[index]? with
    | some p => "%" ++ p.name
    | none => "%arg" ++ index.repr
  | .inst id =>
    match f.inst? id with
    | some i => "%" ++ i.name
    | none => "%<bad " ++ id.repr ++ ">"

/-- An operand behind its type, if it has one. -/
def typedText (f : Function) (v : Operand) : String :=
  match f.operandTy? v with
  | some ty => ty.text ++ " " ++ f.operandText v
  | none => f.operandText v

def labelText (f : Function) (id : BlockId) : String :=
  match f.block? id with
  | some b => "%" ++ b.label
  | none => "%<bad block " ++ id.repr ++ ">"

def commaSeparated (l : List String) : String := String.intercalate ", " l

/-- What an instruction of type `ty` computes. -/
def opText (f : Function) (ty : Ty) : Op → String
  | .binary code lhs rhs =>
    code.mnemonic ++ " " ++ code.ty.text ++ " " ++ f.operandText lhs ++ ", " ++ f.operandText rhs
  | .icmp pred lhs rhs =>
    "icmp " ++ pred.mnemonic ++ " i64 " ++ f.operandText lhs ++ ", " ++ f.operandText rhs
  | .fcmp pred lhs rhs =>
    "fcmp " ++ pred.mnemonic ++ " double " ++ f.operandText lhs ++ ", " ++ f.operandText rhs
  | .zext value => "zext i1 " ++ f.operandText value ++ " to i64"
  | .uitofp value => "uitofp i1 " ++ f.operandText value ++ " to double"
  | .call callee args =>
    "call " ++ ty.text ++ " @" ++ callee ++ "(" ++ commaSeparated (args.map f.typedText) ++ ")"
  | .phi incoming =>
    "phi " ++ ty.text ++ " " ++ commaSeparated (incoming.map fun arm =>
      "[ " ++ f.operandText arm.1 ++ ", " ++ f.labelText arm.2 ++ " ]")

def instText (f : Function) (i : Inst) : String :=
  "  %" ++ i.name ++ " = " ++ f.opText i.ty i.op ++ "\n"

def terminatorText (f : Function) : Terminator → String
  | .ret value => "  ret " ++ f.typedText value ++ "\n"
  | .br target => "  br label " ++ f.labelText target ++ "\n"
  | .condBr cond onTrue onFalse =>
    "  br i1 " ++ f.operandText cond ++ ", label " ++ f.labelText onTrue ++ ", label "
      ++ f.labelText onFalse ++ "\n"

/-- A block: its label, its instructions and its end, a line each. -/
def blockText (f : Function) (b : Block) : String :=
  b.label ++ ":\n"
    ++ String.join (b.insts.map fun id => ((f.inst? id).map f.instText).getD "")
    ++ (b.terminator?.map f.terminatorText).getD ""

/-- The block at place `index` of the layout; a blank line parts it from the one before. -/
def paragraph (f : Function) (id : BlockId) (index : Nat) : String :=
  match f.block? id with
  | some b => (if index = 0 then "" else "\n") ++ f.blockText b
  | none => ""

/-- The listing of a function. -/
def text (f : Function) : String :=
  if f.isDeclaration then
    "declare " ++ f.ret.text ++ " @" ++ f.name ++ "("
      ++ commaSeparated (f.params.map fun p => p.ty.text) ++ ")\n"
  else
    "define " ++ f.ret.text ++ " @" ++ f.name ++ "("
      ++ commaSeparated (f.params.map fun p => p.ty.text ++ " %" ++ p.name) ++ ") \x7b\n"
      ++ String.join (f.layout.zipIdx.map fun e => f.paragraph e.1 e.2) ++ "\x7d\n"

end Function

end Ir

end ScalarLang
