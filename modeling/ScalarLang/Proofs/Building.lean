import ScalarLang.Ir.Builder
import ScalarLang.Proofs.Verified

/-!
# What building adds

A builder only ever adds: instructions and finished blocks stay as they are, and an unfinished block
gets more instructions.

* `Ir.Function.Extends` — everything of one function is in another.
* `Ir.Function.UsesBelow` — the type of an operand that is defined by one of the first instructions.
* `Ir.Builder.block?_push`, `Ir.Builder.block?_createBlock`, `Ir.Builder.block?_terminate` and the lemmas
  beside them — what each operation does.
-/

namespace ScalarLang

namespace Ir

/-! ### The fields of a function after each operation -/

section Fields

variable (f : Function) (b : Builder)

@[simp] theorem Function.unique_insts (base : String) : (f.unique base).2.insts = f.insts := by
  unfold Function.unique
  split <;> rfl

@[simp] theorem Function.unique_blocks (base : String) : (f.unique base).2.blocks = f.blocks := by
  unfold Function.unique
  split <;> rfl

@[simp] theorem Function.unique_layout (base : String) : (f.unique base).2.layout = f.layout := by
  unfold Function.unique
  split <;> rfl

@[simp] theorem Function.unique_params (base : String) : (f.unique base).2.params = f.params := by
  unfold Function.unique
  split <;> rfl

@[simp] theorem Function.unique_name (base : String) : (f.unique base).2.name = f.name := by
  unfold Function.unique
  split <;> rfl

@[simp] theorem Function.unique_ret (base : String) : (f.unique base).2.ret = f.ret := by
  unfold Function.unique
  split <;> rfl

@[simp] theorem Builder.createBlock_fst (label : String) :
    (b.createBlock label).1 = b.function.blocks.size := by
  simp [Builder.createBlock]

@[simp] theorem Builder.push_fst (name : String) (ty : Ty) (op : Op) :
    (b.push name ty op).1 = .inst b.function.insts.size := by
  simp [Builder.push]

end Fields

/-! ### More of a function -/

namespace Function

/-- Everything of `f` is in `g`: instructions and finished blocks as they are, and an unfinished block
with further instructions behind its own. -/
structure Extends (f g : Function) : Prop where
  name : g.name = f.name
  params : g.params = f.params
  ret : g.ret = f.ret
  insts : ∀ i inst, f.inst? i = some inst → g.inst? i = some inst
  blocks : ∀ id b, f.block? id = some b →
    ∃ b', g.block? id = some b' ∧ b.insts <+: b'.insts ∧ (b.terminator?.isSome → b' = b)

namespace Extends

variable {f g h : Function}

theorem refl (f : Function) : f.Extends f :=
  ⟨rfl, rfl, rfl, fun _ _ hi => hi, fun _ b hb => ⟨b, hb, List.prefix_rfl, fun _ => rfl⟩⟩

theorem trans (hfg : f.Extends g) (hgh : g.Extends h) : f.Extends h := by
  refine ⟨hgh.name.trans hfg.name, hgh.params.trans hfg.params, hgh.ret.trans hfg.ret,
    fun i inst hi => hgh.insts i inst (hfg.insts i inst hi), ?_⟩
  intro id b hb
  obtain ⟨b₁, hb₁, hp₁, hd₁⟩ := hfg.blocks id b hb
  obtain ⟨b₂, hb₂, hp₂, hd₂⟩ := hgh.blocks id b₁ hb₁
  refine ⟨b₂, hb₂, hp₁.trans hp₂, fun hdone => ?_⟩
  have h₁ : b₁ = b := hd₁ hdone
  rw [← h₁] at hdone ⊢
  exact hd₂ hdone

theorem size_insts (hfg : f.Extends g) : f.insts.size ≤ g.insts.size := by
  by_contra hlt
  have hi : f.inst? g.insts.size = some f.insts[g.insts.size] := Array.getElem?_eq_getElem (by omega)
  exact absurd (lt_of_inst? (hfg.insts _ _ hi)) (Nat.lt_irrefl _)

theorem size_blocks (hfg : f.Extends g) : f.blocks.size ≤ g.blocks.size := by
  by_contra hlt
  have hb : f.block? g.blocks.size = some f.blocks[g.blocks.size] :=
    Array.getElem?_eq_getElem (by omega)
  obtain ⟨b', hb', -⟩ := hfg.blocks _ _ hb
  exact absurd (lt_of_block? hb') (Nat.lt_irrefl _)

theorem operandTy? (hfg : f.Extends g) {v : Operand} {ty : Ty} (hv : f.operandTy? v = some ty) :
    g.operandTy? v = some ty := by
  cases v with
  | int x => exact hv
  | double x => exact hv
  | arg index =>
    rw [Function.operandTy?] at hv ⊢
    rw [hfg.params]
    exact hv
  | inst i =>
    rw [Function.operandTy?, Option.map_eq_some_iff] at hv ⊢
    obtain ⟨inst, hi, hty⟩ := hv
    exact ⟨inst, hfg.insts i inst hi, hty⟩

/-- A finished block is the same in both. -/
theorem block_of_finished (hfg : f.Extends g) {id : BlockId} {b : Block} {t : Terminator}
    (hb : f.block? id = some b) (ht : b.terminator? = some t) : g.block? id = some b := by
  obtain ⟨b', hb', -, hdone⟩ := hfg.blocks id b hb
  rw [hb', hdone (by rw [ht]; rfl)]

end Extends

/-- The operand `v` has type `ty`, and if it is the value of an instruction, that is one of the first
`n`. -/
def UsesBelow (f : Function) (n : Nat) (v : Operand) (ty : Ty) : Prop :=
  f.operandTy? v = some ty ∧ ∀ i : Nat, v = .inst i → i < n

theorem UsesBelow.mono {f g : Function} (hfg : f.Extends g) {n n' : Nat} (hn : n ≤ n')
    {v : Operand} {ty : Ty} (h : f.UsesBelow n v ty) : g.UsesBelow n' v ty :=
  ⟨hfg.operandTy? h.1, fun i hi => Nat.lt_of_lt_of_le (h.2 i hi) hn⟩

theorem inst_lt_of_operandTy? {f : Function} {i : Nat} {ty : Ty}
    (h : f.operandTy? (.inst i) = some ty) : i < f.insts.size := by
  obtain ⟨inst, hi, -⟩ := Option.map_eq_some_iff.1 h
  exact lt_of_inst? hi

/-- An operand with a type can be used at a place if it is no instruction or one placed before. -/
theorem uses_of_operandTy? {f : Function} {site? : Option Site} {v : Operand} {ty : Ty}
    (hty : f.operandTy? v = some ty)
    (hsite : ∀ i, v = .inst i →
      ∃ d, f.placement.site? i = some d ∧ ∀ s ∈ site?, d.before s = true) :
    f.Uses site? v ty := by
  cases v with
  | int x => exact congrArg Except.ok (Option.some.inj hty)
  | double x => exact congrArg Except.ok (Option.some.inj hty)
  | arg index =>
    obtain ⟨param, hparam, hpty⟩ := Option.map_eq_some_iff.1 hty
    rw [Uses, useTy, hparam]
    exact congrArg Except.ok hpty
  | inst i =>
    obtain ⟨inst, hinst, hity⟩ := Option.map_eq_some_iff.1 hty
    obtain ⟨d, hd, hbefore⟩ := hsite i rfl
    exact useTy_inst_eq_ok_iff.2 ⟨d, inst, hd, hinst, hity, hbefore⟩

/-! ### Blocks and edges -/

theorem edgesFrom_congr {f g : Function} {ids : List BlockId}
    (h : ∀ id ∈ ids, g.succsAt id = f.succsAt id) : g.edgesFrom ids = f.edgesFrom ids := by
  refine List.flatMap_congr fun id hid => ?_
  rw [h id hid]

theorem edgesFrom_append (f : Function) (ids ids' : List BlockId) :
    f.edgesFrom (ids ++ ids') = f.edgesFrom ids ++ f.edgesFrom ids' :=
  List.flatMap_append

theorem succsAt_of_unfinished {f : Function} {id : BlockId}
    (h : ∀ b, f.block? id = some b → b.terminator? = none) : f.succsAt id = [] := by
  unfold succsAt
  cases hb : f.block? id with
  | none => rfl
  | some b =>
    show (b.terminator?).elim [] Terminator.successors = []
    rw [h b hb]
    rfl

theorem instsAt_congr {f g : Function} {id : BlockId} (h : g.block? id = f.block? id) :
    g.instsAt id = f.instsAt id := by
  rw [instsAt, instsAt, h]

theorem succsAt_congr {f g : Function} {id : BlockId} (h : g.block? id = f.block? id) :
    g.succsAt id = f.succsAt id := by
  rw [succsAt, succsAt, h]

end Function

/-! ### What each operation does -/

namespace Builder

variable {b : Builder} {here : BlockId}

section ModifyBlock

variable (change : Block → Block)

@[simp] theorem cursor?_modifyBlock : (b.modifyBlock change).cursor? = b.cursor? := by
  unfold modifyBlock
  split <;> simp_all

@[simp] theorem name_modifyBlock : (b.modifyBlock change).function.name = b.function.name := by
  unfold modifyBlock
  split <;> rfl

@[simp] theorem params_modifyBlock :
    (b.modifyBlock change).function.params = b.function.params := by
  unfold modifyBlock
  split <;> rfl

@[simp] theorem ret_modifyBlock : (b.modifyBlock change).function.ret = b.function.ret := by
  unfold modifyBlock
  split <;> rfl

@[simp] theorem layout_modifyBlock :
    (b.modifyBlock change).function.layout = b.function.layout := by
  unfold modifyBlock
  split <;> rfl

@[simp] theorem insts_modifyBlock : (b.modifyBlock change).function.insts = b.function.insts := by
  unfold modifyBlock
  split <;> rfl

@[simp] theorem size_blocks_modifyBlock :
    (b.modifyBlock change).function.blocks.size = b.function.blocks.size := by
  unfold modifyBlock
  split <;> simp

theorem block?_modifyBlock (hc : b.cursor? = some here) (id : BlockId) :
    (b.modifyBlock change).function.block? id =
      if here = id then (b.function.block? id).map change else b.function.block? id := by
  simp [modifyBlock, hc, Function.block?, Array.getElem?_modify]

end ModifyBlock

section Push

variable (name : String) (ty : Ty) (op : Op)

@[simp] theorem cursor?_push : (b.push name ty op).2.cursor? = b.cursor? := by
  simp [push]

@[simp] theorem layout_push : (b.push name ty op).2.function.layout = b.function.layout := by
  simp [push]

@[simp] theorem size_insts_push :
    (b.push name ty op).2.function.insts.size = b.function.insts.size + 1 := by
  simp [push]

@[simp] theorem size_blocks_push :
    (b.push name ty op).2.function.blocks.size = b.function.blocks.size := by
  simp [push]

theorem inst?_push (i : InstId) :
    (b.push name ty op).2.function.inst? i =
      if i = b.function.insts.size then some ⟨(b.function.unique name).1, ty, op⟩
      else b.function.inst? i := by
  simp [push, Function.inst?, Array.getElem?_push]

theorem block?_push (hc : b.cursor? = some here) (id : BlockId) :
    (b.push name ty op).2.function.block? id =
      if here = id then
        (b.function.block? id).map fun blk =>
          { blk with insts := blk.insts ++ [b.function.insts.size] }
      else b.function.block? id := by
  simp [push, modifyBlock, hc, Function.block?, Array.getElem?_modify]

theorem instsAt_push (hc : b.cursor? = some here) (hlt : here < b.function.blocks.size) :
    (b.push name ty op).2.function.instsAt here =
      b.function.instsAt here ++ [b.function.insts.size] := by
  have hhere : b.function.block? here = some b.function.blocks[here] :=
    Array.getElem?_eq_getElem hlt
  rw [Function.instsAt, Function.instsAt, block?_push name ty op hc, if_pos rfl, hhere]
  rfl

/-- An instruction goes to the end of the block at the cursor, which is not finished. -/
theorem extends_push (hc : b.cursor? = some here)
    (hopen : ∀ blk, b.function.block? here = some blk → blk.terminator? = none) :
    b.function.Extends (b.push name ty op).2.function := by
  refine ⟨by simp [push], by simp [push], by simp [push], ?_, ?_⟩
  · intro i inst hi
    have hlt : i < b.function.insts.size := Function.lt_of_inst? hi
    rw [inst?_push, if_neg (Nat.ne_of_lt hlt)]
    exact hi
  · intro id blk hblk
    rw [block?_push name ty op hc]
    by_cases hid : here = id
    · subst hid
      rw [if_pos rfl, hblk]
      refine ⟨_, rfl, List.prefix_append _ _, fun hdone => ?_⟩
      rw [hopen blk hblk] at hdone
      cases hdone
    · rw [if_neg hid]
      exact ⟨blk, hblk, List.prefix_rfl, fun _ => rfl⟩

end Push

section CreateBlock

variable (label : String)

@[simp] theorem layout_createBlock :
    (b.createBlock label).2.function.layout = b.function.layout := by
  simp [createBlock]

@[simp] theorem insts_createBlock : (b.createBlock label).2.function.insts = b.function.insts := by
  simp [createBlock]

@[simp] theorem size_blocks_createBlock :
    (b.createBlock label).2.function.blocks.size = b.function.blocks.size + 1 := by
  simp [createBlock]

theorem block?_createBlock (id : BlockId) :
    (b.createBlock label).2.function.block? id =
      if id = b.function.blocks.size then some { label := (b.function.unique label).1 }
      else b.function.block? id := by
  simp [createBlock, Function.block?, Array.getElem?_push]

theorem extends_createBlock : b.function.Extends (b.createBlock label).2.function := by
  refine ⟨by simp [createBlock], by simp [createBlock], by simp [createBlock], ?_, ?_⟩
  · intro i inst hi
    rw [Function.inst?, insts_createBlock]
    exact hi
  · intro id blk hblk
    have hlt : id < b.function.blocks.size := Function.lt_of_block? hblk
    rw [block?_createBlock, if_neg (Nat.ne_of_lt hlt)]
    exact ⟨blk, hblk, List.prefix_rfl, fun _ => rfl⟩

end CreateBlock

section Terminate

variable (t : Terminator)

@[simp] theorem layout_terminate : (b.terminate t).function.layout = b.function.layout := by
  simp [terminate]

@[simp] theorem insts_terminate : (b.terminate t).function.insts = b.function.insts := by
  simp [terminate]

@[simp] theorem size_blocks_terminate :
    (b.terminate t).function.blocks.size = b.function.blocks.size := by
  simp [terminate]

theorem block?_terminate (hc : b.cursor? = some here) (id : BlockId) :
    (b.terminate t).function.block? id =
      if here = id then
        (b.function.block? id).map fun blk => { blk with terminator? := some t }
      else b.function.block? id :=
  block?_modifyBlock _ hc id

/-- The block at the cursor can be finished if it is not. -/
theorem extends_terminate (hc : b.cursor? = some here)
    (hopen : ∀ blk, b.function.block? here = some blk → blk.terminator? = none) :
    b.function.Extends (b.terminate t).function := by
  refine ⟨by simp [terminate], by simp [terminate], by simp [terminate], ?_, ?_⟩
  · intro i inst hi
    rw [Function.inst?, insts_terminate]
    exact hi
  · intro id blk hblk
    rw [block?_terminate t hc]
    by_cases hid : here = id
    · subst hid
      rw [if_pos rfl, hblk]
      refine ⟨_, rfl, List.prefix_rfl, fun hdone => ?_⟩
      rw [hopen blk hblk] at hdone
      cases hdone
    · rw [if_neg hid]
      exact ⟨blk, hblk, List.prefix_rfl, fun _ => rfl⟩

end Terminate

section AppendBlock

variable (id : BlockId)

@[simp] theorem insts_appendBlock : (b.appendBlock id).function.insts = b.function.insts := by
  unfold appendBlock
  split <;> rfl

@[simp] theorem blocks_appendBlock : (b.appendBlock id).function.blocks = b.function.blocks := by
  unfold appendBlock
  split <;> rfl

theorem layout_appendBlock {id : BlockId} (h : id ∉ b.function.layout) :
    (b.appendBlock id).function.layout = b.function.layout ++ [id] := by
  unfold appendBlock
  rw [if_neg]
  simpa using h

theorem extends_appendBlock : b.function.Extends (b.appendBlock id).function := by
  unfold appendBlock
  split
  · exact .refl _
  · exact ⟨rfl, rfl, rfl, fun _ _ hi => hi, fun _ blk hblk => ⟨blk, hblk, List.prefix_rfl, fun _ => rfl⟩⟩

end AppendBlock

end Builder

end Ir

end ScalarLang
