import ScalarLang.Proofs.Construction
import ScalarLang.Proofs.Modules
import ScalarLang.Proofs.Operations
import ScalarLang.Proofs.Typed

/-!
# Typed expressions can be lowered

Lowering compares types again.  For a typed expression this never fails: it is lowered part by part, and
each part leaves the function in order and gives a value of its type.

* `Ir.lower_binary_eq_ok_iff` and the lemmas beside it — lowering an expression is lowering its parts.
* `Ir.Lowered` — what lowering an expression does to the function under construction.
* `Ir.ElseReady`, `Ir.JoinReady` — how far the lowering of a conditional has come.
* `Ir.lower_typed` — a typed expression is lowered to a value of its type.
-/

namespace ScalarLang

namespace Ir

open Lower

/-! ### Lowering part by part -/

section Parts

variable {m : Module} {params : List ScalarLang.Param} {b b' : Builder} {v : Operand}

theorem lowerTy_eq_ok_iff {ty : NumType} {span : Span} {t : Ty} :
    lowerTy ty span = .ok t ↔ Ty.ofNum? ty = some t := by
  unfold lowerTy
  split
  · next t' h => rw [h, Except.ok.injEq, Option.some.injEq]
  · next h => simp [h]

theorem check_eq_ok_iff {α : Type} {result : Except LoweringError α} {a : α} :
    (check result : Lower α) b = .ok a b' ↔ result = .ok a ∧ b = b' := by
  cases result with
  | ok x =>
    rw [check, run_pure_eq_ok_iff, Except.ok.injEq]
  | error e =>
    constructor
    · intro h
      exact absurd h run_throw_ne_ok
    · intro h
      cases h.1

theorem build_eq_ok_iff {α : Type} {step : Builder → α × Builder} {a : α} :
    (build step : Lower α) b = .ok a b' ↔ step b = (a, b') :=
  run_modifyGet_eq_ok_iff

theorem run_ite_throw_eq_ok_iff {α : Type} {p : Prop} [Decidable p] {x : Lower α}
    {e : LoweringError} {a : α} : (if p then x else throw e) b = .ok a b' ↔ p ∧ x b = .ok a b' := by
  by_cases hp : p
  · rw [if_pos hp]
    exact ⟨fun h => ⟨hp, h⟩, fun h => h.2⟩
  · rw [if_neg hp]
    exact ⟨fun h => absurd h run_throw_ne_ok, fun h => absurd h.1 hp⟩

theorem lower_literal_eq_ok_iff {value : Literal.Value} {tag : Expr.Tag} :
    lower m params (.literal value tag) b = .ok v b' ↔
      (∃ ty, Ty.ofNum? tag.ty = some ty) ∧ literalOperand value = v ∧ b = b' := by
  rw [lower.eq_def]
  simp only [run_bind_eq_ok_iff, check_eq_ok_iff, lowerTy_eq_ok_iff, run_pure_eq_ok_iff]
  constructor
  · intro h
    obtain ⟨ty, b₁, ⟨hty, rfl⟩, hv, rfl⟩ := h
    exact ⟨⟨ty, hty⟩, hv, rfl⟩
  · intro h
    obtain ⟨⟨ty, hty⟩, hv, rfl⟩ := h
    exact ⟨ty, b, ⟨hty, rfl⟩, hv, rfl⟩

theorem lower_var_eq_ok_iff {name : String} {tag : Expr.Tag} :
    lower m params (.var name tag) b = .ok v b' ↔
      (∃ ty, Ty.ofNum? tag.ty = some ty) ∧
        (∃ index, parameterIndex? params name = some index ∧ v = .arg index) ∧ b = b' := by
  rw [lower.eq_def]
  simp only [run_bind_eq_ok_iff, check_eq_ok_iff, lowerTy_eq_ok_iff]
  cases parameterIndex? params name with
  | none => simp [run_throw_ne_ok]
  | some index =>
    simp only [run_pure_eq_ok_iff, Option.some.injEq, exists_eq_left']
    constructor
    · intro h
      obtain ⟨ty, b₁, ⟨hty, rfl⟩, hv, rfl⟩ := h
      exact ⟨⟨ty, hty⟩, hv.symm, rfl⟩
    · intro h
      obtain ⟨⟨ty, hty⟩, hv, rfl⟩ := h
      exact ⟨ty, b, ⟨hty, rfl⟩, hv.symm, rfl⟩

theorem lower_binary_eq_ok_iff {op : Operator} {lhs rhs : Expr} {tag : Expr.Tag} :
    lower m params (.binary op lhs rhs tag) b = .ok v b' ↔
      (∃ ty, Ty.ofNum? tag.ty = some ty) ∧ ∃ l b₁ r b₂, lower m params lhs b = .ok l b₁ ∧
        lower m params rhs b₁ = .ok r b₂ ∧ (lhs.ty = tag.ty ∧ rhs.ty = tag.ty) ∧
        lowerOp tag l r op b₂ = .ok v b' := by
  rw [lower.eq_def]
  simp only [run_bind_eq_ok_iff, check_eq_ok_iff, lowerTy_eq_ok_iff, run_ite_throw_eq_ok_iff]
  constructor
  · intro h
    obtain ⟨ty, b₀, ⟨hty, rfl⟩, l, b₁, hl, r, b₂, hr, hv⟩ := h
    exact ⟨⟨ty, hty⟩, l, b₁, r, b₂, hl, hr, hv⟩
  · intro h
    obtain ⟨⟨ty, hty⟩, l, b₁, r, b₂, hl, hr, hv⟩ := h
    exact ⟨ty, b, ⟨hty, rfl⟩, l, b₁, hl, r, b₂, hr, hv⟩

theorem lower_call_eq_ok_iff {callee : String} {args : List Expr} {tag : Expr.Tag} :
    lower m params (.call callee args tag) b = .ok v b' ↔
      (∃ ty, Ty.ofNum? tag.ty = some ty) ∧ ∃ target values b₁, m.get? callee = some target ∧
        target.params.length = args.length ∧
        lowerArgs m params callee 0 args target.params b = .ok values b₁ ∧
        b₁.call callee target.ret values "calltmp" = (v, b') := by
  rw [lower.eq_def]
  simp only [run_bind_eq_ok_iff, check_eq_ok_iff, lowerTy_eq_ok_iff]
  cases m.get? callee with
  | none => simp [run_throw_ne_ok]
  | some target =>
    simp only [run_ite_throw_eq_ok_iff, run_bind_eq_ok_iff, build_eq_ok_iff, Option.some.injEq]
    constructor
    · intro h
      obtain ⟨ty, b₀, ⟨hty, rfl⟩, hlen, values, b₁, hvalues, hv⟩ := h
      exact ⟨⟨ty, hty⟩, target, values, b₁, rfl, hlen, hvalues, hv⟩
    · intro h
      obtain ⟨⟨ty, hty⟩, _, values, b₁, rfl, hlen, hvalues, hv⟩ := h
      exact ⟨ty, b, ⟨hty, rfl⟩, hlen, values, b₁, hvalues, hv⟩

theorem lowerArgs_cons_eq_ok_iff {callee : String} {index : Nat} {arg : Expr} {args : List Expr}
    {target : Param} {targets : List Param} {vs : List Operand} :
    lowerArgs m params callee index (arg :: args) (target :: targets) b = .ok vs b' ↔
      Ty.ofNum? arg.ty = some target.ty ∧ ∃ v b₁ vs', lower m params arg b = .ok v b₁ ∧
        lowerArgs m params callee (index + 1) args targets b₁ = .ok vs' b' ∧ vs = v :: vs' := by
  rw [lowerArgs]
  simp only [run_bind_eq_ok_iff, check_eq_ok_iff, lowerTy_eq_ok_iff, run_ite_throw_eq_ok_iff,
    run_pure_eq_ok_iff]
  constructor
  · intro h
    obtain ⟨ty, b₀, ⟨hty, rfl⟩, rfl, v, b₁, hv, vs', b₂, hvs, rfl, rfl⟩ := h
    exact ⟨hty, v, b₁, vs', hv, hvs, rfl⟩
  · intro h
    obtain ⟨hty, v, b₁, vs', hv, hvs, rfl⟩ := h
    exact ⟨target.ty, b, ⟨hty, rfl⟩, rfl, v, b₁, hv, vs', b', hvs, rfl, rfl⟩

/-- What lowering does argument by argument it does to all of them. -/
theorem lowerArgs_related {R : Builder → Builder → Prop} (hrefl : ∀ b, R b b)
    (htrans : ∀ {b b₁ b₂}, R b b₁ → R b₁ b₂ → R b b₂) {callee : String} {args : List Expr}
    (hargs : ∀ a ∈ args, ∀ {b b' v}, lower m params a b = .ok v b' → R b b') {index : Nat}
    {targets : List Param} {b b' : Builder} {vs : List Operand}
    (h : lowerArgs m params callee index args targets b = .ok vs b') : R b b' := by
  induction args generalizing index targets b vs with
  | nil =>
    rw [lowerArgs.eq_def] at h
    obtain ⟨-, rfl⟩ := run_pure_eq_ok_iff.1 h
    exact hrefl b
  | cons a args ih =>
    cases targets with
    | nil =>
      rw [lowerArgs.eq_def] at h
      obtain ⟨-, rfl⟩ := run_pure_eq_ok_iff.1 h
      exact hrefl b
    | cons target targets =>
      obtain ⟨-, v, b₁, vs', hv, hvs, -⟩ := lowerArgs_cons_eq_ok_iff.1 h
      exact htrans (hargs a List.mem_cons_self hv)
        (ih (fun a' ha' => hargs a' (List.mem_cons_of_mem a ha')) hvs)

/-- The builder in which the second branch of a conditional is lowered, when the first is done. -/
def elseBuilder (b : Builder) (n : Nat) : Builder := b.moveTo (.br (n + 2)) (n + 1)

/-- The builder in which both branches of a conditional have been lowered. -/
def joinBuilder (b : Builder) (n : Nat) : Builder := b.moveTo (.br (n + 2)) (n + 2)

theorem lower_conditional_eq_ok_iff {condition onTrue onFalse : Expr} {tag : Expr.Tag} :
    lower m params (.conditional condition onTrue onFalse tag) b = .ok v b' ↔
      ∃ ty value b₁ test b₂ tv b₃ fv b₄, Ty.ofNum? tag.ty = some ty ∧
        lower m params condition b = .ok value b₁ ∧ lowerCondition condition value b₁ = .ok test b₂ ∧
        (onTrue.ty = tag.ty ∧ onFalse.ty = tag.ty) ∧
        lower m params onTrue (b₂.branch test).2 = .ok tv b₃ ∧
        lower m params onFalse (elseBuilder b₃ b₂.function.blocks.size) = .ok fv b₄ ∧
        (joinBuilder b₄ b₂.function.blocks.size).phi ty
          [(tv, b₃.cursor?.getD b₂.function.blocks.size),
            (fv, b₄.cursor?.getD (b₂.function.blocks.size + 1))] "iftmp" = (v, b') := by
  rw [lower.eq_def]
  simp only [run_bind_eq_ok_iff, check_eq_ok_iff, lowerTy_eq_ok_iff, run_ite_throw_eq_ok_iff,
    build_eq_ok_iff, run_get_eq_ok_iff, run_modify_eq_ok_iff, Builder.branch_eq]
  constructor
  · intro h
    obtain ⟨ty, b₀, ⟨hty, rfl⟩, value, b₁, hvalue, test, b₂, htest, htys, blocks, b₂', hbranch, tv, b₃,
      htv, _, _, ⟨rfl, rfl⟩, _, _, rfl, fv, b₄, hfv, _, _, ⟨rfl, rfl⟩, _, _, rfl, hv⟩ := h
    obtain ⟨rfl, rfl⟩ := Prod.mk.inj hbranch
    exact ⟨ty, value, b₁, test, b₂, tv, b₃, fv, b₄, hty, hvalue, htest, htys, htv, hfv, hv⟩
  · intro h
    obtain ⟨ty, value, b₁, test, b₂, tv, b₃, fv, b₄, hty, hvalue, htest, htys, htv, hfv, hv⟩ := h
    exact ⟨ty, b, ⟨hty, rfl⟩, value, b₁, hvalue, test, b₂, htest, htys, _, _, rfl, tv, b₃, htv, _, _,
      ⟨rfl, rfl⟩, (), _, rfl, fv, b₄, hfv, _, _, ⟨rfl, rfl⟩, (), _, rfl, hv⟩

end Parts

/-! ### What lowering does to the function -/

/-- The cursor stands at the one unfinished block of a function that is in order. -/
def Builder.Ready (m : Module) (b : Builder) : Prop :=
  ∃ done here, b.cursor? = some here ∧ b.function.Tidy m done [here]

/-- What lowering an expression does to the function under construction: it keeps to new blocks and the
one at the cursor, gives every new block its place, and leaves the function in order. -/
structure Lowered (m : Module) (b b' : Builder) : Prop where
  after : Builder.After b.function.blocks.size b b'
  laid : ∀ id : Nat, b.function.blocks.size ≤ id → id < b'.function.blocks.size → id ∈ b'.function.layout
  ready : b'.Ready m

namespace Lowered

variable {m : Module} {b b₁ b₂ : Builder}

theorem refl (h : b.Ready m) : Lowered m b b :=
  ⟨.refl _ b, fun _ hle hlt => absurd hlt (Nat.not_lt.2 hle), h⟩

theorem trans (h : Lowered m b b₁) (h' : Lowered m b₁ b₂) : Lowered m b b₂ := by
  refine ⟨h.after.trans (h'.after.mono h.after.grown.size_blocks), ?_, h'.ready⟩
  intro id hle hlt
  by_cases hold : id < b₁.function.blocks.size
  · exact h'.after.mem_layout (h.laid id hle hold)
  · exact h'.laid id (Nat.not_lt.1 hold) hlt

/-- A value stays usable. -/
theorem uses (h : Lowered m b b₁) {v : Operand} {ty : Ty}
    (hv : b.function.UsesBelow b.function.insts.size v ty) :
    b₁.function.UsesBelow b₁.function.insts.size v ty :=
  hv.mono h.after.grown h.after.grown.size_insts

end Lowered

/-- A value of type `ty` comes of `x`, and what has been done to the function is lowering. -/
def Yields (m : Module) (b : Builder) (ty : Ty) (x : Lower Operand) : Prop :=
  ∃ v b', x b = .ok v b' ∧ Lowered m b b' ∧ b'.function.UsesBelow b'.function.insts.size v ty

section Yields

variable {m : Module} {b : Builder}

theorem usesBelow_push (b : Builder) (name : String) (ty : Ty) (op : Op) :
    (b.push name ty op).2.function.UsesBelow (b.push name ty op).2.function.insts.size
      (b.push name ty op).1 ty := by
  rw [Builder.push_fst, Builder.size_insts_push]
  constructor
  · rw [Function.operandTy?, Builder.inst?_push, if_pos rfl]
    rfl
  · intro i hi
    cases hi
    exact Nat.lt_succ_self _

/-- An instruction whose operands are there yields its value. -/
theorem Yields.push (h : b.Ready m) {name : String} {ty : Ty} {op : Op} (hphi : op.isPhi = false)
    (htyped : ∀ name' preds, (⟨name', ty, op⟩ : Inst).TypedBy m
      (b.function.UsesBelow b.function.insts.size)
      (fun v ty => b.function.operandTy? v = some ty) preds) :
    Yields m b ty (build (·.push name ty op)) := by
  obtain ⟨done, here, hc, htidy⟩ := h
  have htidy' : (b.push name ty op).2.function.Tidy m done [here] := by
    refine htidy.push hc (fun name' => htyped name' _) fun hp => ?_
    rw [hphi] at hp
    cases hp
  refine ⟨(b.push name ty op).1, (b.push name ty op).2, build_eq_ok_iff.2 rfl,
    ⟨.push htidy hc htidy', ?_, done, here, ?_, htidy'⟩, usesBelow_push b name ty op⟩
  · intro id hle hlt
    rw [Builder.size_blocks_push] at hlt
    exact absurd hlt (Nat.not_lt.2 hle)
  · rw [Builder.cursor?_push, hc]

theorem Yields.bind {ty ty' : Ty} {x : Lower Operand} {f : Operand → Lower Operand}
    (hx : Yields m b ty x)
    (hf : ∀ v b', Lowered m b b' → b'.function.UsesBelow b'.function.insts.size v ty →
      Yields m b' ty' (f v)) : Yields m b ty' (x >>= f) := by
  obtain ⟨v, b₁, hv, hlow, huse⟩ := hx
  obtain ⟨v', b₂, hv', hlow', huse'⟩ := hf v b₁ hlow huse
  exact ⟨v', b₂, run_bind_eq_ok_iff.2 ⟨v, b₁, hv, hv'⟩, hlow.trans hlow', huse'⟩

variable {l r : Operand}

theorem Test.compare_yields (t : Test) {name : String} (h : b.Ready m)
    (hl : b.function.UsesBelow b.function.insts.size l t.ty)
    (hr : b.function.UsesBelow b.function.insts.size r t.ty) :
    Yields m b .i1 (build (·.push name .i1 (t.compare l r))) :=
  .push h t.isPhi_compare fun _ _ => Test.typedBy_compare_iff.2 ⟨hl, hr⟩

theorem Test.widen_yields (t : Test) {name : String} (h : b.Ready m)
    (hl : b.function.UsesBelow b.function.insts.size l .i1) :
    Yields m b t.ty (build (·.push name t.ty (t.widen l))) :=
  .push h t.isPhi_widen fun _ _ => Test.typedBy_widen_iff.2 hl

/-- An operation whose operands are there yields its value. -/
theorem Realizes.yields {ty : Ty} {op : Operator} {x : Lower Operand} (hx : Realizes ty l r op x)
    (h : b.Ready m) (hl : b.function.UsesBelow b.function.insts.size l ty)
    (hr : b.function.UsesBelow b.function.insts.size r ty) : Yields m b ty x := by
  cases hx with
  | arith hty _ _ => exact .push h rfl fun _ _ => ⟨hty ▸ hl, hty ▸ hr, hty.symm⟩
  | @test t _ _ hty _ _ _ =>
    subst hty
    exact (t.compare_yields h hl hr).bind fun bit b' hlow hbit => t.widen_yields hlow.ready hbit

theorem lowerCondition_yields (h : b.Ready m) {condition : Expr} {ty : Ty}
    (hty : Ty.ofNum? condition.ty = some ty)
    (hl : b.function.UsesBelow b.function.insts.size l ty) :
    Yields m b .i1 (lowerCondition condition l) := by
  unfold lowerCondition
  cases hcond : condition.ty with
  | int =>
    rw [hcond] at hty
    cases hty
    exact .push h rfl fun _ _ => ⟨hl, ⟨rfl, by simp⟩, rfl⟩
  | double =>
    rw [hcond] at hty
    cases hty
    exact .push h rfl fun _ _ => ⟨hl, ⟨rfl, by simp⟩, rfl⟩
  | unresolved =>
    rw [hcond] at hty
    cases hty

end Yields

/-! ### Conditionals -/

section Conditionals

variable {m : Module} {b b₃ b₄ : Builder} {test : Operand}

theorem size_blocks_branch (b : Builder) (test : Operand) :
    (b.branch test).2.function.blocks.size = b.function.blocks.size + 3 := by
  simp [Builder.branch_eq]

theorem branch_ready (h : b.Ready m)
    (ht : b.function.UsesBelow b.function.insts.size test .i1) : (b.branch test).2.Ready m := by
  obtain ⟨done, here, hc, htidy⟩ := h
  refine ⟨done ++ [here], b.function.blocks.size, ?_, (Builder.tidy_branch htidy hc ht).1⟩
  rw [Builder.branch_eq]
  rfl

theorem instsAt_moveTo {here : BlockId} (hc : b.cursor? = some here) (t : Terminator)
    (next id : BlockId) : (b.moveTo t next).function.instsAt id = b.function.instsAt id := by
  have hblock : (b.moveTo t next).function.block? id = (b.terminate t).function.block? id := by
    show ((b.terminate t).appendBlock next).function.block? id = _
    rw [Function.block?, Function.block?, Builder.blocks_appendBlock]
  rw [Function.instsAt, Function.instsAt, hblock, Builder.block?_terminate t hc]
  split
  · cases b.function.block? id <;> rfl
  · rfl

/-- A block that had no place has no instructions either. -/
theorem instsAt_moveTo_next {done : List BlockId} {here : BlockId}
    (h : b.function.Tidy m done [here]) (hc : b.cursor? = some here) (t : Terminator) {next : Nat}
    (hlt : next < b.function.blocks.size) (hnew : next ∉ done ++ [here]) :
    (b.moveTo t next).function.instsAt next = [] := by
  have hblk : b.function.block? next = some b.function.blocks[next] := Array.getElem?_eq_getElem hlt
  rw [instsAt_moveTo hc, Function.instsAt_of_block? hblk]
  exact h.empty next _ hblk hnew

/-- The block of the first branch has no instructions yet. -/
theorem instsAt_branch {here : BlockId} (hc : b.cursor? = some here) (test : Operand) :
    (b.branch test).2.function.instsAt b.function.blocks.size = [] := by
  have hc₃ : (((b.createBlock "then").2.createBlock "else").2.createBlock "ifcont").2.cursor? =
      some here := hc
  rw [Builder.branch_eq]
  show (Builder.moveTo _ _ _).function.instsAt _ = []
  have hne : b.function.blocks.size ≠ b.function.blocks.size + 1 + 1 := by omega
  rw [instsAt_moveTo hc₃]
  simp [Function.instsAt, Builder.block?_createBlock, hne]

/-- The first branch has been lowered, to the block `c₃`, and the second goes on. -/
structure ElseReady (m : Module) (b b₃ : Builder) (c₃ : BlockId) : Prop where
  cursor : b₃.cursor? = some c₃
  tidy : ∃ done, b₃.function.Tidy m done [c₃] ∧
    (elseBuilder b₃ b.function.blocks.size).function.Tidy m (done ++ [c₃])
      [b.function.blocks.size + 1]
  after : Builder.After b.function.blocks.size b (elseBuilder b₃ b.function.blocks.size)
  preds : (elseBuilder b₃ b.function.blocks.size).function.placement.preds
    (b.function.blocks.size + 2) = [c₃]
  size : b.function.blocks.size + 3 ≤ b₃.function.blocks.size
  unplaced : b.function.blocks.size + 2 ∉ b₃.function.layout
  laid : ∀ id : Nat, b.function.blocks.size ≤ id → id < b₃.function.blocks.size →
    id ≠ b.function.blocks.size + 2 →
    id ∈ (elseBuilder b₃ b.function.blocks.size).function.layout
  grown : b₃.function.Extends (elseBuilder b₃ b.function.blocks.size).function
  empty : (elseBuilder b₃ b.function.blocks.size).function.instsAt (b.function.blocks.size + 1) = []

theorem ElseReady.ready {c₃ : BlockId} (h : ElseReady m b b₃ c₃) :
    (elseBuilder b₃ b.function.blocks.size).Ready m := by
  obtain ⟨done, -, htidy⟩ := h.tidy
  exact ⟨_, _, rfl, htidy⟩

theorem elseReady (h : b.Ready m) (ht : b.function.UsesBelow b.function.insts.size test .i1)
    (hlow : Lowered m (b.branch test).2 b₃) : ∃ c₃, ElseReady m b b₃ c₃ := by
  obtain ⟨done, here, hc, htidy⟩ := h
  obtain ⟨hbr, habr, hedges⟩ := Builder.tidy_branch htidy hc ht
  obtain ⟨done₃, c₃, hc₃, htidy₃⟩ := hlow.ready
  have hafter := hlow.after
  rw [size_blocks_branch] at hafter
  have hsize := hlow.after.grown.size_blocks
  rw [size_blocks_branch] at hsize
  -- the blocks of the second branch and of the join have no place yet
  have hunplaced : ∀ id, b.function.blocks.size < id → id < b.function.blocks.size + 3 →
      id ∉ b₃.function.layout := by
    intro id hlt hlt'
    refine hafter.not_mem_layout hlt' ?_
    rw [hbr.layout]
    intro hin
    rcases List.mem_append.1 hin with hin | hin
    · have := htidy.exist id hin
      omega
    · have : id = b.function.blocks.size := List.mem_singleton.1 hin
      omega
  have hplaces : b₃.function.layout = done₃ ++ [c₃] := htidy₃.layout
  have helse : (elseBuilder b₃ b.function.blocks.size).function.Tidy m (done₃ ++ [c₃])
      [b.function.blocks.size + 1] := by
    refine htidy₃.moveTo hc₃ (t := .br _) trivial ?_ (by omega) ?_
    · intro s hs
      have hs : s = b.function.blocks.size + 2 := List.mem_singleton.1 hs
      exact ⟨by omega, hplaces ▸ hunplaced s (by omega) (by omega)⟩
    · exact hplaces ▸ hunplaced _ (by omega) (by omega)
  have hmove : Builder.After b.function.blocks.size b₃ (elseBuilder b₃ b.function.blocks.size) := by
    refine .moveTo htidy₃ hc₃ helse ?_ (by omega)
    intro s hs
    have : s = b.function.blocks.size + 2 := List.mem_singleton.1 hs
    omega
  have hpreds₃ : b₃.function.placement.preds (b.function.blocks.size + 2) = [] := by
    rw [hafter.preds (by omega), Placement.preds, hedges, List.map_eq_nil_iff,
      List.filter_eq_nil_iff]
    rintro ⟨source, target⟩ he heq
    obtain rfl : target = b.function.blocks.size + 2 := by simpa using heq
    rcases List.mem_append.1 he with he | he
    · have := htidy.edge_lt he
      omega
    · simp at he
  refine ⟨c₃, hc₃, ⟨done₃, htidy₃, helse⟩, (habr.trans (hafter.mono (by omega))).trans hmove, ?_, hsize,
    hunplaced _ (by omega) (by omega), ?_, hmove.grown, ?_⟩
  · rw [Placement.preds, elseBuilder, Builder.edges_moveTo htidy₃ hc₃ helse, List.filter_append,
      List.map_append]
    show b₃.function.placement.preds _ ++ _ = _
    rw [hpreds₃]
    simp [Terminator.successors]
  · intro id hle hlt hne
    by_cases hid : id = b.function.blocks.size + 1
    · rw [helse.layout, List.mem_append, List.mem_singleton]
      exact .inr hid
    · refine hmove.mem_layout ?_
      by_cases hid' : id = b.function.blocks.size
      · refine hafter.mem_layout ?_
        rw [hbr.layout, List.mem_append, List.mem_singleton]
        exact .inr hid'
      · refine hlow.laid id ?_ hlt
        rw [size_blocks_branch]
        omega
  · exact instsAt_moveTo_next htidy₃ hc₃ _ (by omega) (hplaces ▸ hunplaced _ (by omega) (by omega))

/-- Both branches have been lowered, to the blocks `c₃` and `c₄`, and their join goes on. -/
structure JoinReady (m : Module) (b b₄ : Builder) (c₃ c₄ : BlockId) : Prop where
  cursor : b₄.cursor? = some c₄
  tidy : ∃ done, b₄.function.Tidy m done [c₄] ∧
    (joinBuilder b₄ b.function.blocks.size).function.Tidy m (done ++ [c₄])
      [b.function.blocks.size + 2]
  after : Builder.After b.function.blocks.size b (joinBuilder b₄ b.function.blocks.size)
  preds : (joinBuilder b₄ b.function.blocks.size).function.placement.preds
    (b.function.blocks.size + 2) = [c₃, c₄]
  ne : c₃ ≠ c₄
  laid : ∀ id : Nat, b.function.blocks.size ≤ id → id < b₄.function.blocks.size →
    id ∈ (joinBuilder b₄ b.function.blocks.size).function.layout
  grown : b₄.function.Extends (joinBuilder b₄ b.function.blocks.size).function
  empty : (joinBuilder b₄ b.function.blocks.size).function.instsAt (b.function.blocks.size + 2) = []

theorem JoinReady.ready {c₃ c₄ : BlockId} (h : JoinReady m b b₄ c₃ c₄) :
    (joinBuilder b₄ b.function.blocks.size).Ready m := by
  obtain ⟨done, -, htidy⟩ := h.tidy
  exact ⟨_, _, rfl, htidy⟩

theorem joinReady {c₃ : BlockId} (h : ElseReady m b b₃ c₃)
    (hlow : Lowered m (elseBuilder b₃ b.function.blocks.size) b₄) : ∃ c₄, JoinReady m b b₄ c₃ c₄ := by
  obtain ⟨done₃, htidy₃, helse⟩ := h.tidy
  obtain ⟨done₄, c₄, hc₄, htidy₄⟩ := hlow.ready
  have hsize : b.function.blocks.size + 3 ≤
      (elseBuilder b₃ b.function.blocks.size).function.blocks.size := by
    rw [elseBuilder, Builder.size_blocks_moveTo]
    exact h.size
  have hsize₄ := hlow.after.grown.size_blocks
  have hafter := hlow.after.mono hsize
  have hplaces : b₄.function.layout = done₄ ++ [c₄] := htidy₄.layout
  have hunplaced : b.function.blocks.size + 2 ∉ done₄ ++ [c₄] := by
    rw [← hplaces]
    refine hafter.not_mem_layout (by omega) ?_
    rw [helse.layout, ← htidy₃.layout]
    intro hin
    rcases List.mem_append.1 hin with hin | hin
    · exact h.unplaced hin
    · have : b.function.blocks.size + 2 = b.function.blocks.size + 1 := List.mem_singleton.1 hin
      omega
  have hjoin : (joinBuilder b₄ b.function.blocks.size).function.Tidy m (done₄ ++ [c₄])
      [b.function.blocks.size + 2] := by
    refine htidy₄.moveTo hc₄ (t := .br _) trivial ?_ (by omega) hunplaced
    intro s hs
    have hs : s = b.function.blocks.size + 2 := List.mem_singleton.1 hs
    exact ⟨by omega, hs ▸ hunplaced⟩
  have hmove : Builder.After b.function.blocks.size b₄ (joinBuilder b₄ b.function.blocks.size) := by
    refine .moveTo htidy₄ hc₄ hjoin ?_ (by omega)
    intro s hs
    have : s = b.function.blocks.size + 2 := List.mem_singleton.1 hs
    omega
  have hpreds₄ : b₄.function.placement.preds (b.function.blocks.size + 2) = [c₃] := by
    rw [hafter.preds (by omega)]
    exact h.preds
  refine ⟨c₄, hc₄, ⟨done₄, htidy₄, hjoin⟩, (h.after.trans (hafter.mono (by omega))).trans hmove, ?_, ?_, ?_,
    hmove.grown, ?_⟩
  · rw [Placement.preds, joinBuilder, Builder.edges_moveTo htidy₄ hc₄ hjoin, List.filter_append,
      List.map_append]
    show b₄.function.placement.preds _ ++ _ = _
    rw [hpreds₄]
    simp [Terminator.successors]
  · -- the block at the end of the first branch is finished, the one at the cursor is not
    intro heq
    obtain ⟨blk, t, hblk, ht, -⟩ := helse.finished c₃ (by simp)
    have hblk₄ := hlow.after.grown.block_of_finished hblk ht
    have hopen := htidy₄.unfinished_rest c₄ (by simp) blk (heq ▸ hblk₄)
    rw [ht] at hopen
    cases hopen
  · intro id hle hlt
    by_cases hid : id = b.function.blocks.size + 2
    · rw [hjoin.layout, List.mem_append, List.mem_singleton]
      exact .inr hid
    · refine hmove.mem_layout ?_
      by_cases hid' : id < b₃.function.blocks.size
      · exact hafter.mem_layout (h.laid id hle hid' hid)
      · refine hlow.laid id ?_ hlt
        rw [elseBuilder, Builder.size_blocks_moveTo]
        exact Nat.not_lt.1 hid'
  · exact instsAt_moveTo_next htidy₄ hc₄ _ (by omega) hunplaced

/-- The values of both branches are joined by a `phi`. -/
theorem join_lowered {c₃ c₄ : BlockId} (hjoin : JoinReady m b b₄ c₃ c₄) {ty : Ty} {tv fv : Operand}
    (htv : (joinBuilder b₄ b.function.blocks.size).function.operandTy? tv = some ty)
    (hfv : (joinBuilder b₄ b.function.blocks.size).function.operandTy? fv = some ty) :
    Lowered m b ((joinBuilder b₄ b.function.blocks.size).phi ty [(tv, c₃), (fv, c₄)] "iftmp").2 := by
  obtain ⟨done, -, htidy⟩ := hjoin.tidy
  have hc : (joinBuilder b₄ b.function.blocks.size).cursor? = some (b.function.blocks.size + 2) := rfl
  have hphi : ((joinBuilder b₄ b.function.blocks.size).phi ty [(tv, c₃), (fv, c₄)]
      "iftmp").2.function.Tidy m (done ++ [c₄]) [b.function.blocks.size + 2] := by
    refine htidy.push hc (fun name' => ?_) fun _ => hjoin.empty
    rw [hjoin.preds]
    refine ⟨rfl, fun arm harm => ?_⟩
    rw [List.mem_cons, List.mem_singleton] at harm
    rcases harm with rfl | rfl
    · exact ⟨by simp, htv⟩
    · exact ⟨by simp, hfv⟩
  have hpush : Builder.After b.function.blocks.size (joinBuilder b₄ b.function.blocks.size)
      ((joinBuilder b₄ b.function.blocks.size).phi ty [(tv, c₃), (fv, c₄)] "iftmp").2 :=
    .push htidy hc hphi
  refine ⟨hjoin.after.trans hpush, fun id hle hlt => ?_, _, _, ?_, hphi⟩
  · rw [Builder.phi, Builder.size_blocks_push, joinBuilder, Builder.size_blocks_moveTo] at hlt
    exact hpush.mem_layout (hjoin.laid id hle hlt)
  · rw [Builder.phi, Builder.cursor?_push]
    exact hc

end Conditionals

/-! ### Expressions -/

/-- A name means a parameter, by its index and by its type alike, or it means nothing. -/
theorem parameter_cases (params : List ScalarLang.Param) (name : String) :
    (∃ index p, parameterIndex? params name = some index ∧ params[index]? = some p ∧ p.name = name ∧
      paramTy? params name = some p.ty) ∨
    parameterIndex? params name = none ∧ paramTy? params name = none := by
  have hty : paramTy? params name =
      (params.zipIdx.reverse.find? fun e => e.1.name == name).map fun e => e.1.ty := by
    have hmap : params.reverse = params.zipIdx.reverse.map Prod.fst := by
      rw [List.map_reverse, List.zipIdx_map_fst]
    rw [paramTy?, hmap, List.find?_map, Option.map_map]
    rfl
  rw [parameterIndex?, hty]
  cases hfind : params.zipIdx.reverse.find? fun e => e.1.name == name with
  | none => exact .inr ⟨rfl, rfl⟩
  | some e =>
    refine .inl ⟨e.2, e.1, rfl, ?_, by simpa using List.find?_some hfind, rfl⟩
    exact List.mem_zipIdx_iff_getElem?.1 (List.mem_reverse.1 (List.mem_of_find?_eq_some hfind))

/-- The index of the parameter that a name means. -/
theorem exists_parameterIndex? {params : List ScalarLang.Param} {name : String} {ty : NumType}
    (h : paramTy? params name = some ty) :
    ∃ index p, parameterIndex? params name = some index ∧ params[index]? = some p ∧
      p.name = name ∧ p.ty = ty := by
  obtain ⟨index, p, hindex, hp, hname, hty⟩ | ⟨-, hnone⟩ := parameter_cases params name
  · exact ⟨index, p, hindex, hp, hname, Option.some.inj (hty.symm.trans h)⟩
  · rw [hnone] at h
    cases h

/-- The function under construction has parameters of these types. -/
def TakesParams (params : List ScalarLang.Param) (f : Function) : Prop :=
  (params.map ScalarLang.Param.ty).map Ty.ofNum? = f.params.map fun p => some p.ty

theorem TakesParams.mono {params : List ScalarLang.Param} {f g : Function}
    (h : TakesParams params f) (hfg : f.Extends g) : TakesParams params g := by
  rw [TakesParams, hfg.params]
  exact h

theorem TakesParams.operandTy? {params : List ScalarLang.Param} {f : Function}
    (h : TakesParams params f) {index : Nat} {p : ScalarLang.Param} {ty : Ty}
    (hp : params[index]? = some p) (hty : Ty.ofNum? p.ty = some ty) :
    f.operandTy? (.arg index) = some ty := by
  have hget := congrArg (fun l => l[index]?) h
  simp only [List.getElem?_map, hp, Option.map_some, hty] at hget
  rw [Function.operandTy?]
  cases hq : f.params[index]? with
  | none =>
    rw [hq] at hget
    cases hget
  | some q =>
    rw [hq] at hget
    exact (Option.some.inj hget).symm

section Typed

variable {m : Module} {params : List ScalarLang.Param}

/-- Arguments that can be lowered one by one can be lowered together. -/
theorem lowerArgs_typed (callee : String) {args : List Expr} {targets : List Param}
    (htys : (args.map Expr.ty).map Ty.ofNum? = targets.map fun p => some p.ty)
    (hargs : ∀ a ∈ args, ∀ b ty, Ty.ofNum? a.ty = some ty → b.Ready m →
      TakesParams params b.function → Yields m b ty (lower m params a))
    (index : Nat) (b : Builder) (hb : b.Ready m) (hp : TakesParams params b.function) :
    ∃ vs b', lowerArgs m params callee index args targets b = .ok vs b' ∧ Lowered m b b' ∧
      List.Forall₂ (fun v p => b'.function.UsesBelow b'.function.insts.size v p.ty) vs targets := by
  induction args generalizing targets index b with
  | nil =>
    have hnil : targets = [] := by
      simpa using htys.symm
    subst hnil
    refine ⟨[], b, ?_, .refl hb, .nil⟩
    rw [lowerArgs.eq_def]
    rfl
  | cons a args ih =>
    cases targets with
    | nil => simp at htys
    | cons target targets =>
      simp only [List.map_cons, List.cons.injEq] at htys
      obtain ⟨v, b₁, hv, hlow, huse⟩ := hargs a List.mem_cons_self b target.ty htys.1 hb hp
      obtain ⟨vs, b₂, hvs, hlow', huses⟩ := ih htys.2
        (fun a' ha' => hargs a' (List.mem_cons_of_mem a ha')) (index + 1) b₁ hlow.ready
        (hp.mono hlow.after.grown)
      exact ⟨v :: vs, b₂, lowerArgs_cons_eq_ok_iff.2 ⟨htys.1, v, b₁, vs, hv, hvs, rfl⟩,
        hlow.trans hlow', .cons (hlow'.uses huse) huses⟩

/-- Both branches of a conditional have been lowered, behind the choice that `test` makes. -/
structure BranchesLowered (m : Module) (params : List ScalarLang.Param) (b : Builder) (test : Operand)
    (ty : Ty) (onTrue onFalse : Expr) (tv fv : Operand) (b₃ b₄ : Builder) (c₃ c₄ : BlockId) :
    Prop where
  grown : b.function.Extends (b.branch test).2.function
  onTrue : lower m params onTrue (b.branch test).2 = .ok tv b₃
  lowTrue : Lowered m (b.branch test).2 b₃
  useTrue : b₃.function.UsesBelow b₃.function.insts.size tv ty
  elseReady : ElseReady m b b₃ c₃
  onFalse : lower m params onFalse (elseBuilder b₃ b.function.blocks.size) = .ok fv b₄
  lowFalse : Lowered m (elseBuilder b₃ b.function.blocks.size) b₄
  useFalse : b₄.function.UsesBelow b₄.function.insts.size fv ty
  joinReady : JoinReady m b b₄ c₃ c₄

/-- Branches that can be lowered wherever the cursor is can be lowered one behind the other. -/
theorem branches_lowered {b : Builder} {test : Operand} {ty : Ty} {onTrue onFalse : Expr}
    (hb : b.Ready m) (hp : TakesParams params b.function)
    (htest : b.function.UsesBelow b.function.insts.size test .i1)
    (iht : ∀ b, b.Ready m → TakesParams params b.function → Yields m b ty (lower m params onTrue))
    (ihf : ∀ b, b.Ready m → TakesParams params b.function → Yields m b ty (lower m params onFalse)) :
    ∃ tv fv b₃ b₄ c₃ c₄,
      BranchesLowered m params b test ty onTrue onFalse tv fv b₃ b₄ c₃ c₄ := by
  have hgrown : b.function.Extends (b.branch test).2.function := by
    obtain ⟨done, here, hcur, htidy⟩ := hb
    exact (Builder.tidy_branch htidy hcur htest).2.1.grown
  obtain ⟨tv, b₃, htv, hlow₃, hutv⟩ := iht _ (branch_ready hb htest) (hp.mono hgrown)
  obtain ⟨c₃, helse⟩ := elseReady hb htest hlow₃
  obtain ⟨fv, b₄, hfv, hlow₄, hufv⟩ := ihf _ helse.ready (hp.mono helse.after.grown)
  obtain ⟨c₄, hjoin⟩ := joinReady helse hlow₄
  exact ⟨tv, fv, b₃, b₄, c₃, c₄, hgrown, htv, hlow₃, hutv, helse, hfv, hlow₄, hufv, hjoin⟩

/-- **A typed expression is lowered to a value of its type.**  By induction on the typing: each part is
lowered behind the one before it. -/
theorem lower_typed {e : Expr} (he : e.Typed params m.signature?) (b : Builder) (ty : Ty)
    (hty : Ty.ofNum? e.ty = some ty) (hb : b.Ready m) (hp : TakesParams params b.function) :
    Yields m b ty (lower m params e) := by
  induction he generalizing b ty with
  | @literal value tag h =>
    refine ⟨literalOperand value, b, lower_literal_eq_ok_iff.2 ⟨⟨ty, hty⟩, rfl, rfl⟩, .refl hb, ?_⟩
    have hty : Ty.ofNum? tag.ty = some ty := hty
    rw [h] at hty
    cases value with
    | int v => exact ⟨hty, by simp [literalOperand]⟩
    | double v => exact ⟨hty, by simp [literalOperand]⟩
  | @var name tag h _ =>
    obtain ⟨index, p, hindex, hparam, -, hpty⟩ := exists_parameterIndex? h
    refine ⟨.arg index, b, lower_var_eq_ok_iff.2 ⟨⟨ty, hty⟩, ⟨index, hindex, rfl⟩, rfl⟩, .refl hb, ?_⟩
    exact ⟨hp.operandTy? hparam (hpty ▸ hty), by simp⟩
  | @binary op lhs rhs tag _ _ hlty hrty ihl ihr =>
    have hty : Ty.ofNum? tag.ty = some ty := hty
    obtain ⟨l, b₁, hl, hlow₁, hul⟩ := ihl b ty (hlty ▸ hty) hb hp
    obtain ⟨r, b₂, hr, hlow₂, hur⟩ := ihr b₁ ty (hrty ▸ hty) hlow₁.ready (hp.mono hlow₁.after.grown)
    obtain ⟨v, b₃, hv, hlow₃, huv⟩ := (lowerOp_realizes op hty).yields hlow₂.ready (hlow₂.uses hul) hur
    exact ⟨v, b₃, lower_binary_eq_ok_iff.2 ⟨⟨ty, hty⟩, l, b₁, r, b₂, hl, hr, ⟨hlty, hrty⟩, hv⟩,
      (hlow₁.trans hlow₂).trans hlow₃, huv⟩
  | @call callee args tag h _ _ ih =>
    have hty : Ty.ofNum? tag.ty = some ty := hty
    obtain ⟨target, htarget, hsig⟩ := Module.signature?_eq_some_iff.1 h
    have hret : ty = target.ret := Option.some.inj (hty.symm.trans hsig.ret)
    subst hret
    obtain ⟨vs, b₁, hvs, hlow₁, huses⟩ :=
      lowerArgs_typed callee hsig.params (fun a ha b ty => ih a ha b ty) 0 b hb hp
    obtain ⟨v, b₂, hv, hlow₂, huv⟩ : Yields m b₁ target.ret
        (build (·.call callee target.ret vs "calltmp")) :=
      .push hlow₁.ready rfl fun _ _ => ⟨target, htarget, rfl, huses⟩
    have hlen : target.params.length = args.length := by
      simpa using congrArg List.length hsig.params.symm
    exact ⟨v, b₂, lower_call_eq_ok_iff.2 ⟨⟨_, hty⟩, target, vs, b₁, htarget, hlen, hvs,
      build_eq_ok_iff.1 hv⟩, hlow₁.trans hlow₂, huv⟩
  | @conditional condition onTrue onFalse tag hc _ _ htty hfty ihc iht ihf =>
    have hty : Ty.ofNum? tag.ty = some ty := hty
    obtain ⟨cty, hcty⟩ := Ty.exists_ofNum? hc.resolved
    obtain ⟨value, b₁, hvalue, hlow₁, huvalue⟩ := ihc b cty hcty hb hp
    obtain ⟨test, b₂, htest, hlow₂, hutest⟩ := lowerCondition_yields hlow₁.ready hcty huvalue
    have hlow := hlow₁.trans hlow₂
    obtain ⟨tv, fv, b₃, b₄, c₃, c₄, h⟩ := branches_lowered hlow.ready (hp.mono hlow.after.grown) hutest
      (fun b hb hp => iht b ty (htty ▸ hty) hb hp) (fun b hb hp => ihf b ty (hfty ▸ hty) hb hp)
    have hgrown := h.elseReady.grown.trans (h.lowFalse.after.grown.trans h.joinReady.grown)
    refine ⟨_, _, lower_conditional_eq_ok_iff.2 ⟨ty, value, b₁, test, b₂, tv, b₃, fv, b₄, hty, hvalue, htest,
      ⟨htty, hfty⟩, h.onTrue, h.onFalse, rfl⟩, ?_, usesBelow_push _ _ _ _⟩
    rw [h.elseReady.cursor, h.joinReady.cursor]
    exact hlow.trans (join_lowered h.joinReady (hgrown.operandTy? h.useTrue.1)
      (h.joinReady.grown.operandTy? h.useFalse.1))

end Typed

end Ir

end ScalarLang
