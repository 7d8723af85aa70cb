import ScalarLang.Ir.Module

/-!
# Verified functions

A function is verified against the module it lives in.  Its layout has to be complete: every block is
laid out once, every instruction is placed once, every block ends, and every successor exists.  Then
operands have to have the types that instructions need, be defined at an earlier place of the layout,
and the entries of a `phi` have to match the edges into its block.

* `Ir.Defect` — what can be wrong, and its wording.
* `Ir.Function.place` — checks the layout; gives the place of every instruction and all edges.
* `Ir.Function.checkBlocks` — checks the instructions and ends of all blocks.
* `Ir.Function.verify` — both.
-/

namespace ScalarLang

namespace Ir

/-- What an operand is used for. -/
inductive Role where
  | operand (inst : String)
  | argument (param inst : String)
  | returned
  | condition
deriving DecidableEq, Repr, Inhabited

def Role.describe : Role → String
  | operand inst => "operand of '" ++ inst ++ "'"
  | argument param inst => "argument '" ++ param ++ "' of '" ++ inst ++ "'"
  | returned => "return value"
  | condition => "branch condition"

/-- What is wrong with a function. -/
inductive Defect where
  | noBlocks
  | layoutLength (created laidOut : Nat)
  | missingBlock (id : BlockId)
  | blockTwice (label : String)
  | missingInst (label : String)
  | instTwice (id : InstId)
  | noTerminator (label : String)
  | instUnplaced
  | latePhi (name : String)
  | useBeforeDefinition (id : InstId)
  | missingArgument (index : Nat)
  | wrongType (role : Role) (expected found : Ty)
  | wrongResult (name : String) (declared produced : Ty)
  | unknownCallee (name callee : String)
  | wrongArity (name : String) (passed : Nat) (callee : String) (taken : Nat)
  | phiArity (name : String) (incoming preds : Nat)
  | phiStranger (name label : String)
  | phiType (name : String) (ty received : Ty)
deriving DecidableEq, Repr, Inhabited

def Defect.describe : Defect → String
  | noBlocks => "function has no blocks"
  | layoutLength created laidOut =>
    created.repr ++ " blocks created but " ++ laidOut.repr ++ " laid out"
  | missingBlock id => "reference to missing block #" ++ id.repr
  | blockTwice label => "block '" ++ label ++ "' laid out twice"
  | missingInst label => "block '" ++ label ++ "' uses missing instruction"
  | instTwice id => "instruction #" ++ id.repr ++ " placed twice"
  | noTerminator label => "block '" ++ label ++ "' has no terminator"
  | instUnplaced => "instruction not placed in any block"
  | latePhi name => "phi '" ++ name ++ "' is not at the start of its block"
  | useBeforeDefinition id => "instruction #" ++ id.repr ++ " used before its definition"
  | missingArgument index => "operand Arg(" ++ index.repr ++ ") refers to nothing"
  | wrongType role expected found =>
    role.describe ++ " must be " ++ expected.text ++ ", found " ++ found.text
  | wrongResult name declared produced =>
    "'" ++ name ++ "' is typed " ++ declared.text ++ " but produces " ++ produced.text
  | unknownCallee name callee => "'" ++ name ++ "' calls unknown function '" ++ callee ++ "'"
  | wrongArity name passed callee taken =>
    "'" ++ name ++ "' passes " ++ passed.repr ++ " argument(s) to '" ++ callee ++ "', which takes "
      ++ taken.repr
  | phiArity name incoming preds =>
    "phi '" ++ name ++ "' has " ++ incoming.repr ++ " incoming value(s) for " ++ preds.repr
      ++ " predecessor(s)"
  | phiStranger name label =>
    "phi '" ++ name ++ "' names '" ++ label ++ "', which is not a predecessor"
  | phiType name ty received =>
    "phi '" ++ name ++ "' of type " ++ ty.text ++ " receives " ++ received.text

/-- A defect and the function that has it. -/
structure VerifyError where
  function : String
  defect : Defect
deriving DecidableEq, Repr, Inhabited

def VerifyError.message (e : VerifyError) : String :=
  "invalid IR in function '" ++ e.function ++ "': " ++ e.defect.describe

/-- The place of an instruction: the index of its block in the layout, and its index in the block. -/
structure Site where
  block : Nat
  index : Nat
deriving DecidableEq, Repr, Inhabited

/-- The order of places in the layout. -/
def Site.before (a b : Site) : Bool :=
  a.block < b.block || (a.block == b.block && a.index < b.index)

/-- The places of instructions, and the edges between blocks, each from a block to a successor. -/
structure Placement where
  sites : List (InstId × Site) := []
  edges : List (BlockId × BlockId) := []
deriving DecidableEq, Repr, Inhabited

namespace Placement

def site? (p : Placement) (id : InstId) : Option Site := p.sites.lookup id

/-- The blocks from which edges lead to `id`, one entry for each edge, in the order of the layout. -/
def preds (p : Placement) (id : BlockId) : List BlockId :=
  (p.edges.filter fun e => e.2 == id).map Prod.fst

end Placement

namespace Function

/-! ### The layout -/

/-- The block of an index, which has to exist. -/
def getBlock (f : Function) (id : BlockId) : Except Defect Block :=
  match f.block? id with
  | some b => .ok b
  | none => .error (.missingBlock id)

/-- Gives the instructions of a block their places; `block` is its index in the layout and `index` the
number of its instructions placed before these. -/
def placeInsts (f : Function) (label : String) (block : Nat) :
    Nat → List InstId → Placement → Except Defect Placement
  | _, [], p => .ok p
  | index, id :: ids, p =>
    if (f.inst? id).isNone then .error (.missingInst label)
    else if (p.site? id).isSome then .error (.instTwice id)
    else
      placeInsts f label block (index + 1) ids { p with sites := p.sites ++ [(id, ⟨block, index⟩)] }

/-- Adds the edges from block `id` to its successors, which have to exist. -/
def placeEdges (f : Function) (id : BlockId) : List BlockId → Placement → Except Defect Placement
  | [], p => .ok p
  | target :: targets, p =>
    if (f.block? target).isNone then .error (.missingBlock target)
    else placeEdges f id targets { p with edges := p.edges ++ [(id, target)] }

/-- Places the blocks of a layout; `done` are those laid out before these. -/
def placeBlocks (f : Function) : List BlockId → List BlockId → Placement → Except Defect Placement
  | _, [], p => .ok p
  | done, id :: ids, p => do
    let block ← f.getBlock id
    if done.contains id then .error (.blockTwice block.label)
    else
      let p ← f.placeInsts block.label done.length 0 block.insts p
      match block.terminator? with
      | none => .error (.noTerminator block.label)
      | some t =>
        let p ← f.placeEdges id t.successors p
        placeBlocks f (done ++ [id]) ids p

/-- Checks the layout and gives the place of every instruction and all edges. -/
def place (f : Function) : Except Defect Placement :=
  if f.layout.isEmpty then .error .noBlocks
  else if f.layout.length ≠ f.blocks.size then
    .error (.layoutLength f.blocks.size f.layout.length)
  else
    match f.placeBlocks [] f.layout {} with
    | .error e => .error e
    | .ok p => if p.sites.length ≠ f.insts.size then .error .instUnplaced else .ok p

/-! ### Instructions -/

/-- The type of an operand used at a place.  The value of an instruction can only be used behind its
definition; without a place it only has to be defined somewhere. -/
def useTy (f : Function) (p : Placement) (site? : Option Site) : Operand → Except Defect Ty
  | .int _ => .ok .i64
  | .double _ => .ok .double
  | .arg index =>
    match f.params[index]? with
    | some param => .ok param.ty
    | none => .error (.missingArgument index)
  | .inst id =>
    match p.site? id, f.inst? id with
    | some definition, some i =>
      if site?.all definition.before then .ok i.ty else .error (.useBeforeDefinition id)
    | _, _ => .error (.useBeforeDefinition id)

/-- Checks that an operand used at a place has the expected type. -/
def expectTy (f : Function) (p : Placement) (site : Site) (role : Role) (expected : Ty)
    (v : Operand) : Except Defect Unit := do
  let found ← f.useTy p (some site) v
  if found = expected then .ok () else .error (.wrongType role expected found)

/-- Checks arguments against the parameters they are passed for. -/
def checkArgs (f : Function) (p : Placement) (site : Site) (name : String) :
    List Operand → List Param → Except Defect Unit
  | v :: args, param :: params => do
    f.expectTy p site (.argument param.name name) param.ty v
    checkArgs f p site name args params
  | _, _ => .ok ()

/-- The result type of a call. -/
def checkCall (f : Function) (m : Module) (p : Placement) (site : Site) (name callee : String)
    (args : List Operand) : Except Defect Ty :=
  match m.get? callee with
  | none => .error (.unknownCallee name callee)
  | some target =>
    if target.params.length ≠ args.length then
      .error (.wrongArity name args.length callee target.params.length)
    else do
      f.checkArgs p site name args target.params
      return target.ret

/-- Checks the entries of a `phi`; each names a predecessor and brings a value of its type. -/
def checkIncoming (f : Function) (p : Placement) (preds : List BlockId) (i : Inst) :
    List (Operand × BlockId) → Except Defect Unit
  | [] => .ok ()
  | (v, source) :: rest =>
    if preds.contains source then do
      let found ← f.useTy p none v
      if found = i.ty then checkIncoming f p preds i rest
      else .error (.phiType i.name i.ty found)
    else do
      let block ← f.getBlock source
      .error (.phiStranger i.name block.label)

/-- The type of a `phi` in block `id`, which has one entry for each edge into it. -/
def checkPhi (f : Function) (p : Placement) (id : BlockId) (i : Inst)
    (incoming : List (Operand × BlockId)) : Except Defect Ty :=
  let preds := p.preds id
  if incoming.length ≠ preds.length then .error (.phiArity i.name incoming.length preds.length)
  else do
    f.checkIncoming p preds i incoming
    return i.ty

/-- The type that an instruction produces. -/
def producedTy (f : Function) (m : Module) (p : Placement) (id : BlockId) (site : Site)
    (i : Inst) : Except Defect Ty :=
  match i.op with
  | .binary code lhs rhs => do
    f.expectTy p site (.operand i.name) code.ty lhs
    f.expectTy p site (.operand i.name) code.ty rhs
    return code.ty
  | .icmp _ lhs rhs => do
    f.expectTy p site (.operand i.name) .i64 lhs
    f.expectTy p site (.operand i.name) .i64 rhs
    return .i1
  | .fcmp _ lhs rhs => do
    f.expectTy p site (.operand i.name) .double lhs
    f.expectTy p site (.operand i.name) .double rhs
    return .i1
  | .zext v => do
    f.expectTy p site (.operand i.name) .i1 v
    return .i64
  | .uitofp v => do
    f.expectTy p site (.operand i.name) .i1 v
    return .double
  | .call callee args => f.checkCall m p site i.name callee args
  | .phi incoming => f.checkPhi p id i incoming

/-- Checks that an instruction produces the type it is given. -/
def checkInst (f : Function) (m : Module) (p : Placement) (id : BlockId) (site : Site) (i : Inst) :
    Except Defect Unit := do
  let produced ← f.producedTy m p id site i
  if produced = i.ty then .ok () else .error (.wrongResult i.name i.ty produced)

def checkTerminator (f : Function) (p : Placement) (site : Site) : Terminator → Except Defect Unit
  | .ret v => f.expectTy p site .returned f.ret v
  | .br _ => .ok ()
  | .condBr cond _ _ => f.expectTy p site .condition .i1 cond

/-- Checks the instructions of block `id` from place `site` on; `phis` says whether a `phi` may still
come. -/
def checkInsts (f : Function) (m : Module) (p : Placement) (id : BlockId) :
    Bool → Site → List InstId → Except Defect Unit
  | _, _, [] => .ok ()
  | phis, site, inst :: insts =>
    match f.inst? inst with
    | none => checkInsts f m p id phis { site with index := site.index + 1 } insts
    | some i =>
      if i.op.isPhi && !phis then .error (.latePhi i.name)
      else do
        f.checkInst m p id site i
        checkInsts f m p id (phis && i.op.isPhi) { site with index := site.index + 1 } insts

/-- Checks the blocks of a layout; `index` is the number of blocks before these. -/
def checkBlocks (f : Function) (m : Module) (p : Placement) :
    Nat → List BlockId → Except Defect Unit
  | _, [] => .ok ()
  | index, id :: ids => do
    let block ← f.getBlock id
    f.checkInsts m p id true ⟨index, 0⟩ block.insts
    match block.terminator? with
    | some t => f.checkTerminator p ⟨index, block.insts.length⟩ t
    | none => .ok ()
    checkBlocks f m p (index + 1) ids

/-- Everything that is checked, with the first defect there is. -/
def defects (f : Function) (m : Module) : Except Defect Unit := do
  let p ← f.place
  f.checkBlocks m p 0 f.layout

/-- Verifies a function against the module it lives in. -/
def verify (f : Function) (m : Module) : Except VerifyError Unit :=
  match f.defects m with
  | .ok () => .ok ()
  | .error d => .error ⟨f.name, d⟩

end Function

end Ir

end ScalarLang
