import ScalarLang.Proofs.Additions
import ScalarLang.Proofs.Simulation
import ScalarLang.Proofs.Wiring

/-!
# Lowering in order

An expression is lowered from the cursor on, and its value is available where the cursor comes to.  A
conditional makes its three blocks before it lowers the branches, and each gets its place behind the
blocks of the branch before it; so edges lead forward, and the blocks of a conditional lie between the
block with the choice and the join, however deep conditionals stand in conditions, operands and
arguments.

* `Expr.conditionals` — the number of conditionals in an expression.
* `Ir.Realizes.computes`, `Ir.lowerCondition_computes` — operations are straight-line code.
* `Ir.branched`, `Ir.alternated`, `Ir.joined` — the three steps of a conditional.
* `Ir.lower_inOrder` — lowering a typed expression keeps the function in order, and adds three blocks and
  a `phi` for each conditional.
-/

namespace ScalarLang

namespace Expr

mutual

/-- The number of conditionals in an expression. -/
def conditionals : Expr → Nat
  | literal _ _ => 0
  | var _ _ => 0
  | binary _ lhs rhs _ => lhs.conditionals + rhs.conditionals
  | call _ args _ => conditionalsAll args
  | conditional condition onTrue onFalse _ =>
    condition.conditionals + (onTrue.conditionals + onFalse.conditionals + 1)

/-- The number of conditionals in the expressions of a list. -/
def conditionalsAll : List Expr → Nat
  | [] => 0
  | e :: es => e.conditionals + conditionalsAll es

end

end Expr

namespace Ir

open Lower Builder

/-! ### Operations -/

section Operations

variable {b b' : Builder} {l r v : Operand}

theorem computes_of_build {vs : List Operand} {name : String} {ty : Ty} {op : Op}
    (h : (build (·.push name ty op) : Lower Operand) b = .ok v b') (hop : op.isPhi = false)
    (hvs : ∀ w ∈ op.operands, w ∈ vs ∨ ∀ i, w ≠ .inst i) : Computes b vs v b' := by
  have hpush : b.push name ty op = (v, b') := build_eq_ok_iff.1 h
  have hv : v = (b.push name ty op).1 := by rw [hpush]
  have hb' : b' = (b.push name ty op).2 := by rw [hpush]
  rw [hv, hb']
  exact .push hop hvs

theorem Test.operands_compare (t : Test) : (t.compare l r).operands = [l, r] := by cases t <;> rfl

theorem Test.operands_widen (t : Test) : (t.widen v).operands = [v] := by cases t <;> rfl

/-- The value of an operation comes of its operands in a straight line. -/
theorem Realizes.computes {ty : Ty} {op : Operator} {x : Lower Operand} (hx : Realizes ty l r op x)
    (h : x b = .ok v b') : Computes b [l, r] v b' := by
  cases hx with
  | arith _ _ _ => exact computes_of_build h rfl fun _ hw => .inl hw
  | @test t _ _ _ _ _ _ =>
    obtain ⟨bit, b₁, h₁, h₂⟩ := run_bind_eq_ok_iff.1 h
    exact .seq (computes_of_build h₁ t.isPhi_compare fun _ hw => .inl (t.operands_compare ▸ hw))
      (computes_of_build h₂ t.isPhi_widen fun _ hw => .inl (t.operands_widen ▸ hw))

theorem lowerCondition_computes {condition : Expr} {value : Operand}
    (h : lowerCondition condition value b = .ok v b') : Computes b [value] v b' := by
  -- the other operand of the comparison is zero
  have hvs : ∀ zero : Operand, (∀ i, zero ≠ .inst i) → ∀ w ∈ [value, zero],
      w ∈ [value] ∨ ∀ i, w ≠ .inst i := by
    intro zero hzero w hw
    rcases List.mem_cons.1 hw with rfl | hw
    · exact .inl (List.mem_singleton_self w)
    · exact .inr (List.mem_singleton.1 hw ▸ hzero)
  unfold lowerCondition at h
  cases hty : condition.ty with
  | int =>
    rw [hty] at h
    exact computes_of_build h rfl (hvs (.int 0) nofun)
  | double =>
    rw [hty] at h
    exact computes_of_build h rfl (hvs (.double .zero) nofun)
  | unresolved =>
    rw [hty] at h
    exact absurd h run_throw_ne_ok

end Operations

/-! ### Conditionals -/

section Conditionals

variable {m : Module} {b b₃ b₄ : Builder} {here c₃ c₄ : BlockId} {test : Operand}

/-- The builder with the blocks of a choice, which have no place yet. -/
def Builder.withChoice (b : Builder) : Builder :=
  (((b.createBlock "then").2.createBlock "else").2.createBlock "ifcont").2

/-- The blocks of a choice have been made. -/
structure ChoiceMade (b : Builder) (here : BlockId) : Prop where
  flowing : b.withChoice.Flowing here
  roles : ∀ id ∈ b.withChoice.function.layout, b.withChoice.function.Role id
  grows : b.function.GrowsTo b.withChoice.function
  labelThen : b.withChoice.function.Labelled b.function.blocks.size "then"
  labelElse : b.withChoice.function.Labelled (b.function.blocks.size + 1) "else"
  labelJoin : b.withChoice.function.Labelled (b.function.blocks.size + 2) "ifcont"

theorem choiceMade {done : List BlockId} (h : b.Flowing here)
    (hroles : ∀ id ∈ b.function.layout, b.function.Role id)
    (htidy : b.function.Tidy m done [here]) : ChoiceMade b here := by
  have t₁ := htidy.createBlock "then"
  have t₂ := t₁.createBlock "else"
  have h₁ : (b.createBlock "then").2.Flowing here := h.createBlock htidy.lt_of_mem_layout
  have h₂ : ((b.createBlock "then").2.createBlock "else").2.Flowing here :=
    h₁.createBlock t₁.lt_of_mem_layout
  have g₁ : b.function.GrowsTo (b.createBlock "then").2.function := h.grows_createBlock
  have g₂ : (b.createBlock "then").2.function.GrowsTo
      ((b.createBlock "then").2.createBlock "else").2.function := h₁.grows_createBlock
  have g₃ : ((b.createBlock "then").2.createBlock "else").2.function.GrowsTo
      b.withChoice.function := h₂.grows_createBlock
  have l₁ := labelled_createBlock "then" (b := b)
  have l₂ := labelled_createBlock "else" (b := (b.createBlock "then").2)
  have l₃ := labelled_createBlock "ifcont" (b := ((b.createBlock "then").2.createBlock "else").2)
  simp only [size_blocks_createBlock] at l₂ l₃
  refine ⟨h₂.createBlock t₂.lt_of_mem_layout, ?_, (g₁.trans g₂).trans g₃, g₃.labelled (g₂.labelled l₁),
    g₃.labelled l₂, l₃⟩
  exact h₂.roles_createBlock t₂.lt_of_mem_layout
    (h₁.roles_createBlock t₁.lt_of_mem_layout (h.roles_createBlock htidy.lt_of_mem_layout hroles))

/-- The block at the cursor has ended with a choice, and the first branch goes on in `b'`.  The blocks of
the second branch and of the join wait for their places. -/
structure Branched (b : Builder) (here : BlockId) (b' : Builder) : Prop
    extends Reaches b here b' b.function.blocks.size where
  preds : b'.function.placement.preds (b.function.blocks.size + 1) = [here]
  labelElse : b'.function.Labelled (b.function.blocks.size + 1) "else"
  labelJoin : b'.function.Labelled (b.function.blocks.size + 2) "ifcont"

theorem branched {done : List BlockId} (h : b.Flowing here)
    (hroles : ∀ id ∈ b.function.layout, b.function.Role id) (htidy : b.function.Tidy m done [here])
    (htest : b.function.UsesBelow b.function.insts.size test .i1)
    (havail : b.function.Available here test) : Branched b here (b.branch test).2 := by
  obtain ⟨htidy', -, hedges⟩ := Builder.tidy_branch htidy h.cursor htest
  have hmade := choiceMade h hroles htidy
  have hchoice : b.withChoice.function.Tidy m done [here] :=
    ((htidy.createBlock "then").createBlock "else").createBlock "ifcont"
  have hlayout : b.withChoice.function.layout = b.function.layout := by
    simp [Builder.withChoice]
  have hpreds : ∀ id : Nat, b.function.blocks.size ≤ id →
      (b.branch test).2.function.placement.preds id =
        ([(here, b.function.blocks.size), (here, b.function.blocks.size + 1)].filter
          fun e => e.2 == id).map Prod.fst := by
    intro id hid
    rw [Placement.preds, hedges, List.filter_append, List.map_append]
    show b.function.placement.preds id ++ _ = _
    rw [htidy.preds_of_le hid, List.nil_append]
  have hempty := instsAt_branch h.cursor test
  have hnew : ∀ id : Nat, b.function.blocks.size ≤ id → id ∉ b.function.layout := by
    intro id hid hin
    exact absurd (htidy.lt_of_mem_layout id hin) (Nat.not_lt.2 hid)
  set n := b.function.blocks.size
  have hfirst : (b.branch test).2.function.placement.preds n = [here] := by
    rw [hpreds n (Nat.le_refl n)]
    simp
  have hsecond : (b.branch test).2.function.placement.preds (n + 1) = [here] := by
    rw [hpreds (n + 1) (Nat.le_succ n)]
    simp
  have hbranch : (b.branch test).2 = b.withChoice.moveTo (.condBr test n (n + 1)) n := by
    rw [Builder.branch_eq]
    rfl
  rw [hbranch] at htidy' hempty hfirst hsecond ⊢
  -- the edges lead to blocks without a place
  have hs : ∀ s ∈ (Terminator.condBr test n (n + 1)).successors,
      s ∉ b.withChoice.function.layout := by
    intro s hs
    rw [hlayout]
    rcases List.mem_cons.1 hs with rfl | hs
    · exact hnew n (Nat.le_refl n)
    · rw [List.mem_singleton.1 hs]
      exact hnew (n + 1) (Nat.le_succ n)
  have hg := hmade.flowing.grows_moveTo hchoice htidy' hs
  have hstart : Reaches b.withChoice here (b.withChoice.moveTo (.condBr test n (n + 1)) n) n := by
    refine hmade.flowing.start hmade.roles hchoice htidy' hs (by simp [Terminator.successors]) ?_ hempty
      hmade.flowing.mem hfirst (.inl hmade.labelThen)
    intro v hv
    rw [List.mem_singleton.1 hv]
    exact hmade.grows.available h.mem havail
  exact ⟨⟨hstart.flowing, hstart.roles, hmade.grows.trans hstart.grows, hstart.dominates⟩, hsecond,
    hg.labelled hmade.labelElse, hg.labelled hmade.labelJoin⟩

/-- When the first branch has been lowered, the second starts. -/
theorem alternated {k : Nat} (h : b.Flowing here) (hbr : Branched b here (b.branch test).2)
    (hlow : Lowered m (b.branch test).2 b₃)
    (hf : Flows k (b.branch test).2 b.function.blocks.size b₃ c₃) (helse : ElseReady m b b₃ c₃) :
    Reaches b₃ here (elseBuilder b₃ b.function.blocks.size) (b.function.blocks.size + 1) := by
  obtain ⟨done, htidy, htidy'⟩ := helse.tidy
  have hlt : b.function.blocks.size + 1 < (b.branch test).2.function.blocks.size := by
    rw [size_blocks_branch]
    omega
  have hs : ∀ s ∈ (Terminator.br (b.function.blocks.size + 2)).successors, s ∉ b₃.function.layout := by
    intro s hs
    rw [List.mem_singleton.1 hs]
    exact helse.unplaced
  refine hf.flowing.start hf.roles htidy htidy' hs (by simp [Terminator.successors]) ?_ helse.empty
    (hf.grows.mem_layout (hbr.grows.mem_layout h.mem)) ?_ (.inr (hf.grows.labelled hbr.labelElse))
  · intro v hv
    cases hv
  · rw [Flowing.preds_moveTo htidy helse.cursor htidy', hlow.after.preds hlt, hbr.preds]
    simp [Terminator.successors]

/-- When the second branch has been lowered too, the join goes on behind both. -/
theorem arrived (hfirst : Reaches b here b₃ c₃) (hsecond : Reaches b₃ here b₄ c₄)
    (hjoin : JoinReady m b b₄ c₃ c₄) :
    (joinBuilder b₄ b.function.blocks.size).Flowing (b.function.blocks.size + 2) ∧
      (∀ id ∈ b₄.function.layout, (joinBuilder b₄ b.function.blocks.size).function.Role id) ∧
      b₄.function.GrowsTo (joinBuilder b₄ b.function.blocks.size).function ∧
      (joinBuilder b₄ b.function.blocks.size).function.Dominates here (b.function.blocks.size + 2) := by
  obtain ⟨done, htidy, htidy'⟩ := hjoin.tidy
  have hunplaced : b.function.blocks.size + 2 ∉ b₄.function.layout :=
    Flowing.unplaced_moveTo htidy htidy'
  have hs : ∀ s ∈ (Terminator.br (b.function.blocks.size + 2)).successors, s ∉ b₄.function.layout := by
    intro s hs
    rw [List.mem_singleton.1 hs]
    exact hunplaced
  have hg : b₄.function.GrowsTo (joinBuilder b₄ b.function.blocks.size).function :=
    hsecond.flowing.grows_moveTo htidy htidy' hs
  have hedge : c₄ ∈ (joinBuilder b₄ b.function.blocks.size).function.placement.preds
      (b.function.blocks.size + 2) := by
    rw [hjoin.preds]
    simp
  have hflow : (joinBuilder b₄ b.function.blocks.size).Flowing (b.function.blocks.size + 2) := by
    refine hsecond.flowing.moveTo htidy htidy' hs (by simp [Terminator.successors]) ?_ hjoin.empty
      ⟨c₄, hsecond.flowing.mem, (Function.mem_preds_iff.1 hedge).2⟩
    intro v hv
    cases hv
  refine ⟨hflow, hsecond.flowing.roles_moveTo htidy htidy' hs hsecond.roles, hg, ?_⟩
  refine hflow.dominates_of_preds (hg.entry_ne hunplaced) ?_
  intro s hs
  rw [hjoin.preds, List.mem_cons, List.mem_singleton] at hs
  rcases hs with rfl | rfl
  · exact (hsecond.grows.trans hg).dominates hfirst.flowing.mem hfirst.dominates
  · exact hg.dominates hsecond.flowing.mem hsecond.dominates

/-- The `phi` of a join reads what is available at the end of each branch. -/
theorem joined (ty : Ty) {tv fv : Operand} (hfirst : Reaches b here b₃ c₃)
    (hsecond : Reaches b₃ here b₄ c₄) (hjoin : JoinReady m b b₄ c₃ c₄)
    (hlabel : b₄.function.Labelled (b.function.blocks.size + 2) "ifcont")
    (htv : b₃.function.Available c₃ tv) (hfv : b₄.function.Available c₄ fv) :
    Reaches b here ((joinBuilder b₄ b.function.blocks.size).phi ty [(tv, c₃), (fv, c₄)] "iftmp").2
        (b.function.blocks.size + 2) ∧
      ((joinBuilder b₄ b.function.blocks.size).phi ty [(tv, c₃), (fv, c₄)] "iftmp").2.function.Available
        (b.function.blocks.size + 2)
        ((joinBuilder b₄ b.function.blocks.size).phi ty [(tv, c₃), (fv, c₄)] "iftmp").1 := by
  obtain ⟨hflow, hroles, hg, hdom⟩ := arrived hfirst hsecond hjoin
  have hempty := hjoin.empty
  have hpreds := hjoin.preds
  have hlayout : ∀ id ∈ (joinBuilder b₄ b.function.blocks.size).function.layout,
      id ∈ b₄.function.layout ∨ id = b.function.blocks.size + 2 := by
    obtain ⟨done, htidy, htidy'⟩ := hjoin.tidy
    intro id hid
    rw [htidy'.layout, ← htidy.layout, List.mem_append, List.mem_singleton] at hid
    exact hid
  set n := b.function.blocks.size
  have hg' : (joinBuilder b₄ n).function.GrowsTo
      ((joinBuilder b₄ n).phi ty [(tv, c₃), (fv, c₄)] "iftmp").2.function := hflow.grows_push
  have hphi : ((joinBuilder b₄ n).phi ty [(tv, c₃), (fv, c₄)] "iftmp").2.Flowing (n + 2) := by
    refine hflow.push (fun v hv => by cases hv) ?_
    intro arm harm
    rcases List.mem_cons.1 harm with rfl | harm
    · exact ⟨(hsecond.grows.trans hg).mem_layout hfirst.flowing.mem,
        (hsecond.grows.trans hg).available hfirst.flowing.mem htv⟩
    · rw [List.mem_singleton.1 harm]
      exact ⟨hg.mem_layout hsecond.flowing.mem, hg.available hsecond.flowing.mem hfv⟩
  refine ⟨⟨hphi, ?_, ((hfirst.grows.trans hsecond.grows).trans hg).trans hg',
    hg'.dominates hflow.mem hdom⟩, hflow.available_push⟩
  intro id hid
  rw [Builder.phi, layout_push] at hid
  by_cases hne : n + 2 = id
  · subst hne
    have hinst : ((joinBuilder b₄ n).phi ty [(tv, c₃), (fv, c₄)] "iftmp").2.function.inst?
        (joinBuilder b₄ n).function.insts.size =
          some ⟨((joinBuilder b₄ n).function.unique "iftmp").1, ty, .phi [(tv, c₃), (fv, c₄)]⟩ := by
      rw [Builder.phi, inst?_push, if_pos rfl]
    refine .join (hg'.labelled (hg.labelled hlabel)) ((hg'.preds _ hid).trans hpreds) hjoin.ne ?_ hinst
      rfl
    rw [Builder.phi, hflow.phisAt_push, Function.phisAt, hempty]
    rfl
  · refine hg'.role hid (hflow.phisAt_push_of_ne hid hne) (hroles id ?_)
    exact (hlayout id hid).resolve_right fun heq => hne heq.symm

end Conditionals

/-! ### Expressions -/

section Expressions

variable {m : Module} {params : List ScalarLang.Param}

theorem phiCount_branch (b : Builder) (test : Operand) : (b.branch test).2.phiCount = b.phiCount := by
  simp [phiCount, Builder.branch_eq, insts_moveTo]

/-- Wherever the expression is lowered, the function grows in order, and the value is available where
the cursor comes to. -/
def LowersInOrder (m : Module) (params : List ScalarLang.Param) (e : Expr) : Prop :=
  ∀ (b : Builder) here v b', b.Ready m → TakesParams params b.function →
    lower m params e b = .ok v b' → b.Flowing here →
    (∀ id ∈ b.function.layout, b.function.Role id) →
    ∃ there, Flows e.conditionals b here b' there ∧ b'.function.Available there v

theorem lowered_of_lower {e : Expr} {b b' : Builder} {v : Operand}
    (he : e.Typed params m.signature?) (hb : b.Ready m) (hp : TakesParams params b.function)
    (h : lower m params e b = .ok v b') : Lowered m b b' := by
  obtain ⟨ty, hty⟩ := Ty.exists_ofNum? he.resolved
  exact (Machine.yields_spec h (lower_typed he b ty hty hb hp)).1

/-- The values of arguments are all available when the last of them has been lowered. -/
theorem lowerArgs_flows {callee : String} {es : List Expr}
    (hes : ∀ e ∈ es, e.Typed params m.signature? ∧ LowersInOrder m params e)
    {targets : List Param} {index : Nat} {b b' : Builder} {here : BlockId} {vs : List Operand}
    (htys : (es.map Expr.ty).map Ty.ofNum? = targets.map fun p => some p.ty) (hb : b.Ready m)
    (hp : TakesParams params b.function)
    (h : lowerArgs m params callee index es targets b = .ok vs b') (hflow : b.Flowing here)
    (hroles : ∀ id ∈ b.function.layout, b.function.Role id) :
    ∃ there, Flows (Expr.conditionalsAll es) b here b' there ∧
      ∀ v ∈ vs, b'.function.Available there v := by
  induction es generalizing targets index b here vs with
  | nil =>
    have hnil : targets = [] := by simpa using htys.symm
    subst hnil
    rw [lowerArgs.eq_def] at h
    obtain ⟨rfl, rfl⟩ := run_pure_eq_ok_iff.1 h
    exact ⟨here, .refl hflow hroles, fun v hv => by cases hv⟩
  | cons e es ih =>
    cases targets with
    | nil => simp at htys
    | cons target targets =>
      simp only [List.map_cons, List.cons.injEq] at htys
      obtain ⟨he, hin⟩ := hes e List.mem_cons_self
      obtain ⟨-, v, b₁, vs, hv, hvs, rfl⟩ := lowerArgs_cons_eq_ok_iff.1 h
      have hlow := lowered_of_lower he hb hp hv
      obtain ⟨c₁, hf₁, hv₁⟩ := hin b here v b₁ hb hp hv hflow hroles
      obtain ⟨c₂, hf₂, hvs₂⟩ := ih (fun e' he' => hes e' (List.mem_cons_of_mem e he')) htys.2 hlow.ready
        (hp.mono hlow.after.grown) hvs hf₁.flowing hf₁.roles
      refine ⟨c₂, hf₁.trans hf₂, fun w hw => ?_⟩
      rcases List.mem_cons.1 hw with rfl | hw
      · exact hf₂.available hf₁.flowing hv₁
      · exact hvs₂ w hw

/-- A conditional adds three blocks and a `phi` to those of its parts. -/
theorem conditional_lowersInOrder {condition onTrue onFalse : Expr} {tag : Expr.Tag}
    (hc : condition.Typed params m.signature?) (ht : onTrue.Typed params m.signature?)
    (hf : onFalse.Typed params m.signature?) (htty : onTrue.ty = tag.ty) (hfty : onFalse.ty = tag.ty)
    (ihc : LowersInOrder m params condition) (iht : LowersInOrder m params onTrue)
    (ihf : LowersInOrder m params onFalse) :
    LowersInOrder m params (.conditional condition onTrue onFalse tag) := by
  intro b here v b' hb hp hv hflow hroles
  obtain ⟨ty, value, b₁, test, b₂, tv, b₃, fv, b₄, hty, hvalue, htest, -, htv, hfv, hphi⟩ :=
    lower_conditional_eq_ok_iff.1 hv
  -- how the parts were lowered, one behind the other
  obtain ⟨cty, hcty⟩ := Ty.exists_ofNum? hc.resolved
  obtain ⟨hlow₁, huvalue⟩ := Machine.yields_spec hvalue (lower_typed hc b cty hcty hb hp)
  obtain ⟨hlow₂, hutest⟩ := Machine.yields_spec htest (lowerCondition_yields hlow₁.ready hcty huvalue)
  have hlow := hlow₁.trans hlow₂
  have hp₂ := hp.mono hlow.after.grown
  obtain ⟨tv', fv', b₃', b₄', c₃, c₄, hparts⟩ := branches_lowered hlow.ready hp₂ hutest
    (fun b hb hp => lower_typed ht b ty (htty ▸ hty) hb hp)
    (fun b hb hp => lower_typed hf b ty (hfty ▸ hty) hb hp)
  obtain ⟨rfl, rfl⟩ := EStateM.Result.ok.inj (htv.symm.trans hparts.onTrue)
  obtain ⟨rfl, rfl⟩ := EStateM.Result.ok.inj (hfv.symm.trans hparts.onFalse)
  obtain ⟨hgrown, -, hlow₃, -, helse, -, hlow₄, -, hjoin⟩ := hparts
  rw [helse.cursor, hjoin.cursor] at hphi
  obtain ⟨rfl, rfl⟩ := Prod.ext_iff.1 hphi
  -- the condition, up to the choice
  obtain ⟨c, hf₁, hv₁⟩ := ihc b here value b₁ hb hp hvalue hflow hroles
  obtain ⟨hf₂, hv₂⟩ := (lowerCondition_computes htest).flows hf₁.flowing hf₁.roles (by simpa using hv₁)
  obtain ⟨done, c', hcur, htidy⟩ := hlow.ready
  obtain rfl : c = c' := Option.some.inj (hf₂.flowing.cursor.symm.trans hcur)
  have hbr := branched hf₂.flowing hf₂.roles htidy hutest hv₂
  -- the branches
  obtain ⟨c₃', hft, hvt⟩ := iht _ _ tv b₃ (branch_ready hlow.ready hutest) (hp₂.mono hgrown) htv
    hbr.flowing hbr.roles
  obtain rfl : c₃' = c₃ := Option.some.inj (hft.flowing.cursor.symm.trans helse.cursor)
  have halt := alternated hf₂.flowing hbr hlow₃ hft helse
  obtain ⟨c₄', hff, hvf⟩ := ihf _ _ fv b₄ helse.ready (hp₂.mono helse.after.grown) hfv halt.flowing
    halt.roles
  obtain rfl : c₄' = c₄ := Option.some.inj (hff.flowing.cursor.symm.trans hjoin.cursor)
  -- the join
  obtain ⟨hreaches, havail⟩ := joined ty (hbr.toReaches.trans hft.toReaches)
    (halt.trans hff.toReaches) hjoin
    (hff.grows.labelled (halt.grows.labelled (hft.grows.labelled hbr.labelJoin))) hvt hvf
  refine ⟨b₂.function.blocks.size + 2, (hf₁.trans hf₂).trans
    (?_ : Flows (onTrue.conditionals + onFalse.conditionals + 1) _ _ _ _), havail⟩
  refine ⟨hreaches, ?_, ?_⟩
  · rw [Builder.phi, size_blocks_push, joinBuilder, size_blocks_moveTo, hff.size, elseBuilder,
      size_blocks_moveTo, hft.size, size_blocks_branch]
    omega
  · rw [Builder.phi, phiCount_push, joinBuilder, phiCount_moveTo, hff.phis, elseBuilder, phiCount_moveTo,
      hft.phis, phiCount_branch]
    show _ + 1 = _
    omega

/-- **Lowering a typed expression keeps the function in order.** -/
theorem lower_inOrder {e : Expr} (he : e.Typed params m.signature?) : LowersInOrder m params e := by
  induction he with
  | @literal value tag h =>
    intro b here v b' hb hp hv hflow hroles
    obtain ⟨-, rfl, rfl⟩ := lower_literal_eq_ok_iff.1 hv
    refine ⟨here, .refl hflow hroles, .of_ne ?_⟩
    cases value <;> exact nofun
  | @var name tag h hres =>
    intro b here v b' hb hp hv hflow hroles
    obtain ⟨-, ⟨index, -, rfl⟩, rfl⟩ := lower_var_eq_ok_iff.1 hv
    exact ⟨here, .refl hflow hroles, .of_ne nofun⟩
  | @binary op lhs rhs tag hl hr hlty hrty ihl ihr =>
    intro b here v b' hb hp hv hflow hroles
    obtain ⟨⟨ty, hty⟩, l, b₁, r, b₂, hlv, hrv, -, hopv⟩ := lower_binary_eq_ok_iff.1 hv
    have hlow₁ := lowered_of_lower hl hb hp hlv
    obtain ⟨c₁, hf₁, hv₁⟩ := ihl b here l b₁ hb hp hlv hflow hroles
    obtain ⟨c₂, hf₂, hv₂⟩ := ihr b₁ c₁ r b₂ hlow₁.ready (hp.mono hlow₁.after.grown) hrv hf₁.flowing
      hf₁.roles
    have hvs : ∀ w ∈ [l, r], b₂.function.Available c₂ w := by
      intro w hw
      rcases List.mem_cons.1 hw with rfl | hw
      · exact hf₂.available hf₁.flowing hv₁
      · exact List.mem_singleton.1 hw ▸ hv₂
    have hcomputes := (lowerOp_realizes op hty).computes hopv
    obtain ⟨hf₃, hv₃⟩ := hcomputes.flows hf₂.flowing hf₂.roles hvs
    exact ⟨c₂, (hf₁.trans hf₂).trans hf₃, hv₃⟩
  | @call callee es tag h hes hres ih =>
    intro b here v b' hb hp hv hflow hroles
    obtain ⟨-, target, vs, b₁, htarget, -, hvs, hcallv⟩ := lower_call_eq_ok_iff.1 hv
    obtain ⟨target', htarget', hsig⟩ := Module.signature?_eq_some_iff.1 h
    obtain rfl : target = target' := Option.some.inj (htarget.symm.trans htarget')
    obtain ⟨c₁, hf₁, hvs₁⟩ := lowerArgs_flows (fun e he => ⟨hes e he, ih e he⟩) hsig.params hb hp hvs
      hflow hroles
    obtain ⟨rfl, rfl⟩ := Prod.ext_iff.1 hcallv
    have hf₂ : Flows 0 b₁ c₁ (b₁.call callee target.ret vs "calltmp").2 c₁ :=
      .push hf₁.flowing hf₁.roles rfl hvs₁
    exact ⟨c₁, hf₁.trans hf₂, hf₁.flowing.available_push⟩
  | conditional hc ht hf htty hfty ihc iht ihf =>
    exact conditional_lowersInOrder hc ht hf htty hfty ihc iht ihf

end Expressions

end Ir

end ScalarLang
