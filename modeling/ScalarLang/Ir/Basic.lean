import ScalarLang.Double
import ScalarLang.NumType

/-!
# Instructions, blocks and functions

A function is a graph of blocks in static single assignment form: every instruction defines one named
value, and a `phi` picks the value that belongs to the edge by which its block was entered.
Instructions and blocks live in two arenas and are referred to by their index; the layout is the order
in which blocks are listed, its first block is the entry.

* `Ir.Ty`, `Ir.Operand`, `Ir.Op`, `Ir.Inst`, `Ir.Terminator`, `Ir.Block`, `Ir.Function`.
* `Ir.Function.unique` — a name that nothing else in the function has.
* `Ir.Function.declare` — a function without blocks.
-/

namespace ScalarLang

namespace Ir

/-- Truth values, 64-bit integers and doubles. -/
inductive Ty where
  | i1
  | i64
  | double
deriving DecidableEq, Repr, Inhabited

namespace Ty

/-- The type in which values of a number type are computed. -/
def ofNum? : NumType → Option Ty
  | .int => some i64
  | .double => some double
  | .unresolved => none

/-- The number type that is computed in a type; truth values have none. -/
def toNum? : Ty → Option NumType
  | i64 => some .int
  | double => some .double
  | i1 => none

end Ty

/-- The index of an instruction in its function. -/
abbrev InstId := Nat

/-- The index of a block in its function. -/
abbrev BlockId := Nat

/-- What an instruction works on: a constant, a parameter or the value of an instruction. -/
inductive Operand where
  | int (value : Int64)
  | double (value : Double)
  | arg (index : Nat)
  | inst (id : InstId)
deriving DecidableEq, Repr, Inhabited

/-- Arithmetic on integers, and on doubles. -/
inductive Arith where
  | add
  | sub
  | mul
  | sdiv
  | fadd
  | fsub
  | fmul
  | fdiv
deriving DecidableEq, Repr, Inhabited

namespace Arith

def all : List Arith := [add, sub, mul, sdiv, fadd, fsub, fmul, fdiv]

def mnemonic : Arith → String
  | add => "add"
  | sub => "sub"
  | mul => "mul"
  | sdiv => "sdiv"
  | fadd => "fadd"
  | fsub => "fsub"
  | fmul => "fmul"
  | fdiv => "fdiv"

/-- The type of the operands, and of the result. -/
def ty : Arith → Ty
  | add | sub | mul | sdiv => .i64
  | fadd | fsub | fmul | fdiv => .double

end Arith

/-- Comparisons of signed integers. -/
inductive IntPred where
  | eq
  | ne
  | slt
  | sgt
  | sle
  | sge
deriving DecidableEq, Repr, Inhabited

namespace IntPred

def all : List IntPred := [eq, ne, slt, sgt, sle, sge]

def mnemonic : IntPred → String
  | eq => "eq"
  | ne => "ne"
  | slt => "slt"
  | sgt => "sgt"
  | sle => "sle"
  | sge => "sge"

end IntPred

/-- Comparisons of doubles that also hold when an operand is not a number. -/
inductive FloatPred where
  | ueq
  | une
  | ult
  | ugt
  | ule
  | uge
deriving DecidableEq, Repr, Inhabited

namespace FloatPred

def all : List FloatPred := [ueq, une, ult, ugt, ule, uge]

def mnemonic : FloatPred → String
  | ueq => "ueq"
  | une => "une"
  | ult => "ult"
  | ugt => "ugt"
  | ule => "ule"
  | uge => "uge"

end FloatPred

/-- What an instruction computes. -/
inductive Op where
  | binary (code : Arith) (lhs rhs : Operand)
  | icmp (pred : IntPred) (lhs rhs : Operand)
  | fcmp (pred : FloatPred) (lhs rhs : Operand)
  | zext (value : Operand)
  | uitofp (value : Operand)
  | call (callee : String) (args : List Operand)
  | phi (incoming : List (Operand × BlockId))
deriving DecidableEq, Repr, Inhabited

def Op.isPhi : Op → Bool
  | phi _ => true
  | _ => false

structure Inst where
  name : String
  ty : Ty
  op : Op
deriving DecidableEq, Repr, Inhabited

/-- How a block ends. -/
inductive Terminator where
  | ret (value : Operand)
  | br (target : BlockId)
  | condBr (cond : Operand) (onTrue onFalse : BlockId)
deriving DecidableEq, Repr, Inhabited

/-- The blocks that can come next, one entry for each edge. -/
def Terminator.successors : Terminator → List BlockId
  | ret _ => []
  | br target => [target]
  | condBr _ onTrue onFalse => [onTrue, onFalse]

structure Block where
  label : String
  insts : List InstId := []
  terminator? : Option Terminator := none
deriving DecidableEq, Repr, Inhabited

structure Param where
  name : String
  ty : Ty
deriving DecidableEq, Repr, Inhabited

/-- A function.  `names` are the names in use for parameters, instructions and blocks, and
`lastSuffix` is the number that was last put behind a name to tell it from another. -/
structure Function where
  name : String
  params : List Param := []
  ret : Ty
  insts : Array Inst := #[]
  blocks : Array Block := #[]
  layout : List BlockId := []
  names : List String := []
  lastSuffix : Nat := 0
deriving DecidableEq, Repr, Inhabited

namespace Function

/-- A function without blocks only says what it looks like to a caller. -/
def isDeclaration (f : Function) : Bool := f.blocks.isEmpty

def inst? (f : Function) (id : InstId) : Option Inst := f.insts[id]?

def block? (f : Function) (id : BlockId) : Option Block := f.blocks[id]?

/-- The first block of the layout. -/
def entry? (f : Function) : Option BlockId := f.layout.head?

/-- The type of an operand, unless it refers to nothing. -/
def operandTy? (f : Function) : Operand → Option Ty
  | .int _ => some .i64
  | .double _ => some .double
  | .arg index => f.params[index]?.map Param.ty
  | .inst id => (f.inst? id).map Inst.ty

/-! ### Names -/

/-- The first of the names `base` with a number behind it, from `last + 1` on, that is not in use, and
its number.  One of any `names.length + 1` such names is free. -/
def freeSuffix (names : List String) (base : String) : Nat → Nat → String × Nat
  | 0, last => (base ++ last.repr, last)
  | tries + 1, last =>
    let name := base ++ (last + 1).repr
    if names.contains name then freeSuffix names base tries (last + 1) else (name, last + 1)

/-- Reserves a name: `base` if it is free, and otherwise `base` with the next number behind it for
which it is. -/
def unique (f : Function) (base : String) : String × Function :=
  if f.names.contains base then
    let (name, last) := freeSuffix f.names base (f.names.length + 1) f.lastSuffix
    (name, { f with names := name :: f.names, lastSuffix := last })
  else (base, { f with names := base :: f.names })

/-- Adds a parameter under a name of its own. -/
def addParam (f : Function) (p : Param) : Function :=
  let (name, f) := f.unique p.name
  { f with params := f.params ++ [⟨name, p.ty⟩] }

/-- A function without blocks.  Of two parameters with one name the later one is renamed. -/
def declare (name : String) (params : List Param) (ret : Ty) : Function :=
  params.foldl addParam { name, ret }

end Function

end Ir

end ScalarLang
