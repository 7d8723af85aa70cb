import ScalarLang.Ir.Basic

/-!
# Building functions

A builder adds blocks and instructions to one function.  Instructions and terminators go to the block
at its cursor; without a cursor an instruction gets an index but no place in a block, and a terminator
is dropped.

* `Ir.Builder.createBlock`, `Ir.Builder.appendBlock` — makes a block, and puts it in the layout.
* `Ir.Builder.push` — adds an instruction under a name of its own.
* `Ir.Builder.terminate` — ends the block at the cursor.
* `Ir.Builder.moveTo` — ends the block at the cursor and goes on in another.
* `Ir.Builder.branch` — ends the block at the cursor with a choice between two new blocks.
-/

namespace ScalarLang

namespace Ir

structure Builder where
  function : Function
  cursor? : Option BlockId := none
deriving DecidableEq, Repr, Inhabited

namespace Builder

/-- Makes a block that has no place in the layout yet. -/
def createBlock (b : Builder) (label : String) : BlockId × Builder :=
  let (label, f) := b.function.unique label
  (f.blocks.size, { b with function := { f with blocks := f.blocks.push { label } } })

/-- Puts a block at the end of the layout, unless it has a place there already. -/
def appendBlock (b : Builder) (id : BlockId) : Builder :=
  if b.function.layout.contains id then b
  else { b with function := { b.function with layout := b.function.layout ++ [id] } }

/-- Makes a block and puts it at the end of the layout. -/
def appendNewBlock (b : Builder) (label : String) : BlockId × Builder :=
  let (id, b) := b.createBlock label
  (id, b.appendBlock id)

/-- Moves the cursor to the end of a block. -/
def position (b : Builder) (id : BlockId) : Builder := { b with cursor? := some id }

/-- Changes the block at the cursor, if there is one. -/
def modifyBlock (b : Builder) (change : Block → Block) : Builder :=
  match b.cursor? with
  | some id =>
    { b with function := { b.function with blocks := b.function.blocks.modify id change } }
  | none => b

/-- Adds an instruction and gives its value. -/
def push (b : Builder) (name : String) (ty : Ty) (op : Op) : Operand × Builder :=
  let (name, f) := b.function.unique name
  let id := f.insts.size
  let b := { b with function := { f with insts := f.insts.push ⟨name, ty, op⟩ } }
  (.inst id, b.modifyBlock fun block => { block with insts := block.insts ++ [id] })

/-- Ends the block at the cursor; an end that it has already is replaced. -/
def terminate (b : Builder) (t : Terminator) : Builder :=
  b.modifyBlock fun block => { block with terminator? := some t }

/-- Ends the block at the cursor and goes on in `next`, which gets its place in the layout here. -/
def moveTo (b : Builder) (t : Terminator) (next : BlockId) : Builder :=
  ((b.terminate t).appendBlock next).position next

/-- The blocks of a choice: one for each branch, and the one in which both go on. -/
structure Branches where
  onTrue : BlockId
  onFalse : BlockId
  join : BlockId
deriving DecidableEq, Repr, Inhabited

/-- Ends the block at the cursor with a choice between two new blocks and goes on in the first. -/
def branch (b : Builder) (test : Operand) : Branches × Builder :=
  let (onTrue, b) := b.createBlock "then"
  let (onFalse, b) := b.createBlock "else"
  let (join, b) := b.createBlock "ifcont"
  (⟨onTrue, onFalse, join⟩, b.moveTo (.condBr test onTrue onFalse) onTrue)

/-! ### One operation for each instruction -/

def binary (b : Builder) (code : Arith) (lhs rhs : Operand) (name : String) : Operand × Builder :=
  b.push name code.ty (.binary code lhs rhs)

def icmp (b : Builder) (pred : IntPred) (lhs rhs : Operand) (name : String) : Operand × Builder :=
  b.push name .i1 (.icmp pred lhs rhs)

def fcmp (b : Builder) (pred : FloatPred) (lhs rhs : Operand) (name : String) : Operand × Builder :=
  b.push name .i1 (.fcmp pred lhs rhs)

def zext (b : Builder) (value : Operand) (name : String) : Operand × Builder :=
  b.push name .i64 (.zext value)

def uitofp (b : Builder) (value : Operand) (name : String) : Operand × Builder :=
  b.push name .double (.uitofp value)

def call (b : Builder) (callee : String) (ret : Ty) (args : List Operand) (name : String) :
    Operand × Builder :=
  b.push name ret (.call callee args)

def phi (b : Builder) (ty : Ty) (incoming : List (Operand × BlockId)) (name : String) :
    Operand × Builder :=
  b.push name ty (.phi incoming)

end Builder

end Ir

end ScalarLang
