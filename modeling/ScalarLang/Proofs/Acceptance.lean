import ScalarLang.Proofs.Closed

/-!
# Which definitions are accepted

Lowering believes the types that the nodes of an expression carry and compares them with each other only.
But every value that it makes is an operand of an instruction, or is returned at the end of the last
block, and verification compares the type that the value has with the one that is needed there.  So the
types of an expression whose function passes verification are those that the rules derive, at every
node.

* `Ir.Function.Demands` — an instruction needs an operand of a type.
* `Ir.Builder.Grows` — what building keeps, for expressions of all kinds.
* `Ir.Builder.Takes` — something has been built that needs operands of a type.
* `Ir.lower_grows` — lowering only adds, whatever types the nodes carry.
* `Ir.typed_of_lower` — an expression that is lowered to a value of the type it carries, in a verified
  function, is typed.
* `Ir.Module.generate_accepts_iff` — the definitions that become functions.
-/

namespace ScalarLang

namespace Ir

open Lower

/-! ### What verification says about types -/

namespace Function

variable {f g h : Function} {m : Module} {v : Operand} {ty : Ty}

/-- All instructions of `f` are in `g`, under the same numbers. -/
def Within (f g : Function) : Prop := ∀ i inst, f.inst? i = some inst → g.inst? i = some inst

theorem Within.trans (hfg : f.Within g) (hgh : g.Within h) : f.Within h :=
  fun i inst hi => hgh i inst (hfg i inst hi)

/-- Some instruction of the function needs the operand `v` to have type `ty`. -/
def Demands (f : Function) (v : Operand) (ty : Ty) : Prop :=
  ∃ i inst, f.inst? i = some inst ∧ ∀ (m : Module) (use : Operand → Ty → Prop) (preds : List BlockId),
    inst.TypedBy m use use preds → use v ty

theorem Demands.mono (hd : f.Demands v ty) (hfg : f.Within g) : g.Demands v ty := by
  obtain ⟨i, inst, hi, hneeds⟩ := hd
  exact ⟨i, inst, hfg i inst hi, hneeds⟩

/-- The instructions of a verified function follow the rules for the types of its operands. -/
theorem Verified.typedBy (hf : f.Verified m) {i : InstId} {inst : Inst} (hi : f.inst? i = some inst) :
    ∃ preds, inst.TypedBy m (fun v ty => f.operandTy? v = some ty)
      (fun v ty => f.operandTy? v = some ty) preds := by
  obtain ⟨id, site, htyped⟩ := hf.inst_typed (Array.mem_of_getElem? hi)
  exact ⟨_, htyped.mono (fun v ty hv => operandTy?_of_useTy hv) fun v ty hv => operandTy?_of_useTy hv⟩

/-- In a verified function, what is needed is there. -/
theorem Verified.operandTy?_of_demands (hf : f.Verified m) (hd : f.Demands v ty) :
    f.operandTy? v = some ty := by
  obtain ⟨i, inst, hi, hneeds⟩ := hd
  obtain ⟨preds, htyped⟩ := hf.typedBy hi
  exact hneeds m _ preds htyped

/-- A verified function returns values of its result type. -/
theorem Verified.operandTy?_of_ret (hf : f.Verified m) {id : BlockId} {b : Block}
    (hb : f.block? id = some b) (ht : b.terminator? = some (.ret v)) :
    f.operandTy? v = some f.ret := by
  have hid : id ∈ f.layout := hf.complete.mem_layout_iff.2 (lt_of_block? hb)
  obtain ⟨k, hk⟩ := List.mem_iff_getElem?.1 hid
  obtain ⟨b', hb', htyped⟩ := hf.blocks k id hk
  obtain rfl := Option.some.inj (hb.symm.trans hb')
  exact operandTy?_of_useTy (htyped.terminator _ ht)

end Function

/-! ### What building keeps -/

namespace Builder

variable {b b₁ b₂ : Builder}

/-- The cursor stands at a block that exists. -/
def Stands (b : Builder) : Prop := ∃ here : Nat, b.cursor? = some here ∧ here < b.function.blocks.size

/-- What building keeps, whether or not the function is in order. -/
structure Grows (b b' : Builder) : Prop where
  params : b'.function.params = b.function.params
  ret : b'.function.ret = b.function.ret
  insts : b.function.Within b'.function
  blocks : b.function.blocks.size ≤ b'.function.blocks.size
  stands : b.Stands → b'.Stands

namespace Grows

theorem refl (b : Builder) : b.Grows b := ⟨rfl, rfl, fun _ _ hi => hi, Nat.le_refl _, fun hs => hs⟩

theorem trans (h : b.Grows b₁) (h' : b₁.Grows b₂) : b.Grows b₂ :=
  ⟨h'.params.trans h.params, h'.ret.trans h.ret, h.insts.trans h'.insts,
    Nat.le_trans h.blocks h'.blocks, fun hs => h'.stands (h.stands hs)⟩

theorem push (b : Builder) (name : String) (ty : Ty) (op : Op) : b.Grows (b.push name ty op).2 := by
  refine ⟨by simp [Builder.push], by simp [Builder.push], ?_, by simp, ?_⟩
  · intro i inst hi
    have hlt : i < b.function.insts.size := Function.lt_of_inst? hi
    rw [inst?_push, if_neg (Nat.ne_of_lt hlt)]
    exact hi
  · intro hs
    obtain ⟨here, hc, hlt⟩ := hs
    exact ⟨here, by rw [cursor?_push, hc], by rw [size_blocks_push]; exact hlt⟩

theorem createBlock (b : Builder) (label : String) : b.Grows (b.createBlock label).2 := by
  have hext := extends_createBlock label (b := b)
  refine ⟨hext.params, hext.ret, hext.insts, hext.size_blocks, ?_⟩
  intro hs
  obtain ⟨here, hc, hlt⟩ := hs
  exact ⟨here, hc, Nat.lt_of_lt_of_le hlt hext.size_blocks⟩

theorem moveTo {next : Nat} (t : Terminator) (hlt : next < b.function.blocks.size) :
    b.Grows (b.moveTo t next) := by
  have hext := extends_appendBlock next (b := b.terminate t)
  refine ⟨?_, ?_, ?_, ?_, fun _ => ⟨next, rfl, ?_⟩⟩
  · exact hext.params.trans (by simp [terminate])
  · exact hext.ret.trans (by simp [terminate])
  · intro i inst hi
    refine hext.insts i inst ?_
    rw [Function.inst?, insts_terminate]
    exact hi
  · rw [size_blocks_moveTo]
  · rw [size_blocks_moveTo]
    exact hlt

theorem branch (b : Builder) (test : Operand) : b.Grows (b.branch test).2 := by
  rw [branch_eq]
  refine (((createBlock b _).trans (createBlock _ _)).trans (createBlock _ _)).trans (moveTo _ ?_)
  simp only [size_blocks_createBlock]
  omega

/-- The branches of a conditional go on in blocks that exist. -/
theorem elseBuilder {test : Operand} (h : (b.branch test).2.Grows b₁) :
    b₁.Grows (elseBuilder b₁ b.function.blocks.size) := by
  have hsize := h.blocks
  rw [size_blocks_branch] at hsize
  exact moveTo _ (by omega)

theorem joinBuilder {test : Operand} (h : (b.branch test).2.Grows b₁)
    (h' : (Ir.elseBuilder b₁ b.function.blocks.size).Grows b₂) :
    b₂.Grows (joinBuilder b₂ b.function.blocks.size) := by
  have hsize := (h.trans h.elseBuilder).trans h'
  have hle := hsize.blocks
  rw [size_blocks_branch] at hle
  exact moveTo _ (by omega)

end Grows

/-- Something has been built that needs the operands `vs` to have type `ty`. -/
structure Takes (b b' : Builder) (ty : Ty) (vs : List Operand) : Prop where
  grows : b.Grows b'
  demands : ∀ v ∈ vs, b'.function.Demands v ty

namespace Takes

variable {ty : Ty} {vs : List Operand}

theorem trans (h : b.Takes b₁ ty vs) (h' : b₁.Grows b₂) : b.Takes b₂ ty vs :=
  ⟨h.grows.trans h', fun v hv => (h.demands v hv).mono h'.insts⟩

/-- An instruction needs what its typing rule asks for. -/
theorem push {name : String} {ty' : Ty} {op : Op}
    (h : ∀ name' m use preds, (⟨name', ty', op⟩ : Inst).TypedBy m use use preds → ∀ v ∈ vs, use v ty) :
    b.Takes (b.push name ty' op).2 ty vs := by
  refine ⟨.push b name ty' op, fun v hv =>
    ⟨b.function.insts.size, ⟨(b.function.unique name).1, ty', op⟩, ?_, ?_⟩⟩
  · rw [inst?_push, if_pos rfl]
  · intro m use preds htyped
    exact h _ m use preds htyped v hv

end Takes

end Builder

/-! ### Operations -/

section Operations

variable {b b' : Builder} {l r v : Operand}

theorem builder_of_build {α : Type} {step : Builder → α × Builder} {a : α}
    (h : (build step : Lower α) b = .ok a b') : b' = (step b).2 := by
  rw [build_eq_ok_iff] at h
  rw [h]

theorem Test.compare_takes (t : Test) {name : String}
    (h : (build (·.push name .i1 (t.compare l r)) : Lower Operand) b = .ok v b') :
    b.Takes b' t.ty [l, r] := by
  rw [builder_of_build h]
  exact .push fun _ _ _ _ htyped => by simp [Test.typedBy_compare_iff.1 htyped]

/-- An operation needs operands of its type. -/
theorem Realizes.takes {ty : Ty} {op : Operator} {x : Lower Operand} (hx : Realizes ty l r op x)
    (h : x b = .ok v b') : b.Takes b' ty [l, r] := by
  cases hx with
  | arith hty _ _ =>
    subst hty
    rw [builder_of_build h]
    exact .push fun _ _ _ _ htyped => by simp [htyped.1, htyped.2.1]
  | @test t _ _ hty _ _ _ =>
    subst hty
    obtain ⟨bit, b₁, h₁, h₂⟩ := run_bind_eq_ok_iff.1 h
    rw [builder_of_build h₂]
    exact (t.compare_takes h₁).trans (.push ..)

/-- A test needs a condition of the type that its node carries. -/
theorem lowerCondition_takes {condition : Expr} {value : Operand}
    (h : lowerCondition condition value b = .ok v b') :
    ∃ ty, Ty.ofNum? condition.ty = some ty ∧ b.Takes b' ty [value] := by
  unfold lowerCondition at h
  cases hty : condition.ty with
  | int =>
    rw [hty] at h
    have htakes : b.Takes b' .i64 [value, .int 0] := Test.compare_takes (.int .ne) h
    exact ⟨.i64, rfl, htakes.grows, by simpa using htakes.demands value (by simp)⟩
  | double =>
    rw [hty] at h
    have htakes : b.Takes b' .double [value, .double .zero] := Test.compare_takes (.double .une) h
    exact ⟨.double, rfl, htakes.grows, by simpa using htakes.demands value (by simp)⟩
  | unresolved =>
    rw [hty] at h
    exact absurd h run_throw_ne_ok

theorem phi_takes (b : Builder) (ty : Ty) (arms : List (Operand × BlockId)) (name : String) :
    b.Takes (b.phi ty arms name).2 ty (arms.map Prod.fst) := by
  refine .push fun _ _ _ _ htyped v hv => ?_
  obtain ⟨arm, harm, rfl⟩ := List.mem_map.1 hv
  exact (htyped.2 arm harm).2

end Operations

/-! ### Expressions -/

section Expressions

variable {m : Module} {params : List ScalarLang.Param} {b b' : Builder} {v : Operand}

/-- **Lowering only adds**, whatever types the nodes carry. -/
theorem lower_grows {e : Expr} (h : lower m params e b = .ok v b') : b.Grows b' := by
  induction e using Expr.induct generalizing b b' v with
  | literal value tag =>
    obtain ⟨-, -, rfl⟩ := lower_literal_eq_ok_iff.1 h
    exact .refl b
  | var name tag =>
    obtain ⟨-, -, rfl⟩ := lower_var_eq_ok_iff.1 h
    exact .refl b
  | binary op lhs rhs tag ihl ihr =>
    obtain ⟨⟨ty, hty⟩, l, b₁, r, b₂, hl, hr, -, hv⟩ := lower_binary_eq_ok_iff.1 h
    exact ((ihl hl).trans (ihr hr)).trans ((lowerOp_realizes op hty).takes hv).grows
  | call callee args tag ih =>
    obtain ⟨-, target, values, b₁, -, -, hvalues, hcall⟩ := lower_call_eq_ok_iff.1 h
    have hargs := lowerArgs_related Builder.Grows.refl .trans ih hvalues
    have hb' : b' = (b₁.call callee target.ret values "calltmp").2 := by rw [hcall]
    rw [hb']
    exact hargs.trans (.push ..)
  | conditional condition onTrue onFalse tag ihc iht ihf =>
    obtain ⟨ty, value, b₁, test, b₂, tv, b₃, fv, b₄, -, hvalue, htest, -, htv, hfv, hphi⟩ :=
      lower_conditional_eq_ok_iff.1 h
    obtain ⟨cty, -, htakes⟩ := lowerCondition_takes htest
    have hb' := congrArg Prod.snd hphi
    simp only at hb'
    rw [← hb']
    have htrue := iht htv
    have hfalse := ihf hfv
    exact ((ihc hvalue).trans htakes.grows).trans ((Builder.Grows.branch b₂ test).trans
      (htrue.trans (htrue.elseBuilder.trans (hfalse.trans
        ((htrue.joinBuilder hfalse).trans (phi_takes ..).grows)))))

/-- A parameter has the number type of its argument. -/
theorem TakesParams.param_ty {f : Function} (h : TakesParams params f) {index : Nat}
    {p : ScalarLang.Param} (hp : params[index]? = some p) {ty : Ty}
    (hty : f.operandTy? (.arg index) = some ty) : Ty.ofNum? p.ty = some ty := by
  have hget := congrArg (fun l => l[index]?) h
  simp only [List.getElem?_map, hp, Option.map_some] at hget
  obtain ⟨q, hq, rfl⟩ := Option.map_eq_some_iff.1 hty
  rw [hq] at hget
  exact Option.some.inj hget

section Verified

variable {f : Function}

/-- An expression that is lowered, inside the function `f`, to a value of the type it carries is
typed. -/
def Reflects (m : Module) (params : List ScalarLang.Param) (f : Function) (e : Expr) : Prop :=
  ∀ b b' v ty, lower m params e b = .ok v b' → b'.function.Within f → Ty.ofNum? e.ty = some ty →
    f.operandTy? v = some ty → e.Typed params m.signature?

/-- Arguments whose values have the types of the parameters are typed. -/
theorem Reflects.args {callee : String} {args : List Expr}
    (hargs : ∀ a ∈ args, Reflects m params f a) {index : Nat} {targets : List Param}
    (hlen : targets.length = args.length) {b b' : Builder} {vs : List Operand}
    (h : lowerArgs m params callee index args targets b = .ok vs b') (hin : b'.function.Within f)
    (hvs : List.Forall₂ (fun v p => f.operandTy? v = some p.ty) vs targets) :
    (args.map Expr.ty).map Ty.ofNum? = targets.map (fun p => some p.ty) ∧
      ∀ a ∈ args, a.Typed params m.signature? := by
  induction args generalizing index targets b vs with
  | nil =>
    obtain rfl := List.length_eq_zero_iff.1 hlen
    exact ⟨rfl, fun a ha => absurd ha List.not_mem_nil⟩
  | cons a args ih =>
    cases targets with
    | nil => cases hlen
    | cons target targets =>
      obtain ⟨hty, v, b₁, vs', hv, hvs', rfl⟩ := lowerArgs_cons_eq_ok_iff.1 h
      obtain ⟨huse, huses⟩ := List.forall₂_cons.1 hvs
      obtain ⟨htys, htyped⟩ := ih (fun a' ha' => hargs a' (List.mem_cons_of_mem a ha'))
        (Nat.succ.inj hlen) hvs' huses
      have hrest := lowerArgs_related Builder.Grows.refl .trans (fun _ _ _ _ _ h => lower_grows h) hvs'
      have ha := hargs a List.mem_cons_self b b₁ v target.ty hv (hrest.insts.trans hin) hty huse
      refine ⟨?_, List.forall_mem_cons.2 ⟨ha, htyped⟩⟩
      rw [List.map_cons, List.map_cons, List.map_cons, hty, htys]

/-- **In a verified function, an expression is lowered to a value of the type it carries only if it is
typed.**  By induction on the expression: the instruction that takes the values of the parts needs them
to have the types that the parts carry. -/
theorem typed_of_lower (hf : f.Verified m) (hp : TakesParams params f) (e : Expr) :
    Reflects m params f e := by
  induction e using Expr.induct with
  | literal value tag =>
    intro b b' v ty h hin hty hv
    obtain ⟨-, rfl, rfl⟩ := lower_literal_eq_ok_iff.1 h
    refine .literal (Ty.ofNum?_inj hty ?_)
    rw [← hv]
    cases value <;> rfl
  | var name tag =>
    intro b b' v ty h hin hty hv
    obtain ⟨-, ⟨index, hindex, rfl⟩, rfl⟩ := lower_var_eq_ok_iff.1 h
    obtain ⟨index', p, hindex', hparam, -, hmeans⟩ | ⟨hnone, -⟩ := parameter_cases params name
    · obtain rfl := Option.some.inj (hindex.symm.trans hindex')
      have hpty : p.ty = tag.ty := Ty.ofNum?_inj (hp.param_ty hparam hv) hty
      exact .var (hpty ▸ hmeans) (Ty.isResolved_of_ofNum? hty)
    · rw [hindex] at hnone
      cases hnone
  | binary op lhs rhs tag ihl ihr =>
    intro b b' v ty h hin hty hv
    obtain ⟨-, l, b₁, r, b₂, hl, hr, ⟨hlty, hrty⟩, hop⟩ := lower_binary_eq_ok_iff.1 h
    have htakes := (lowerOp_realizes op hty).takes hop
    have huse : ∀ x ∈ [l, r], f.operandTy? x = some ty := fun x hx =>
      hf.operandTy?_of_demands ((htakes.demands x hx).mono hin)
    have hin₂ := htakes.grows.insts.trans hin
    have hin₁ := (lower_grows hr).insts.trans hin₂
    refine .binary ?_ ?_ hlty hrty
    · exact ihl b b₁ l ty hl hin₁ (by rw [hlty]; exact hty) (huse l (by simp))
    · exact ihr b₁ b₂ r ty hr hin₂ (by rw [hrty]; exact hty) (huse r (by simp))
  | call callee args tag ih =>
    intro b b' v ty h hin hty hv
    obtain ⟨-, target, values, b₁, htarget, hlen, hvalues, hcall⟩ := lower_call_eq_ok_iff.1 h
    obtain ⟨rfl, rfl⟩ : (b₁.call callee target.ret values "calltmp").1 = v ∧
        (b₁.call callee target.ret values "calltmp").2 = b' := Prod.ext_iff.1 hcall
    -- the call is the last instruction, and its rule speaks of all arguments at once
    have hinst : f.inst? b₁.function.insts.size =
        some ⟨(b₁.function.unique "calltmp").1, target.ret, .call callee values⟩ := by
      refine hin _ _ ?_
      rw [Builder.call, Builder.inst?_push, if_pos rfl]
    obtain ⟨preds, target', htarget', -, huses⟩ := hf.typedBy hinst
    obtain rfl := Option.some.inj (htarget.symm.trans htarget')
    have hret : target.ret = ty := by
      rw [Builder.call, Builder.push_fst, Function.operandTy?, hinst] at hv
      exact Option.some.inj hv
    have hin₁ := (Builder.Grows.push b₁ "calltmp" target.ret (.call callee values)).insts.trans hin
    obtain ⟨htys, htyped⟩ := Reflects.args ih hlen hvalues hin₁ huses
    refine .call (Module.signature?_eq_some_iff.2 ⟨target, htarget, htys, ?_⟩) htyped
      (Ty.isResolved_of_ofNum? hty)
    rw [hret]
    exact hty
  | conditional condition onTrue onFalse tag ihc iht ihf =>
    intro b b' v ty h hin hty hv
    obtain ⟨ty', value, b₁, test, b₂, tv, b₃, fv, b₄, hty', hvalue, htest, ⟨htty, hfty⟩, htv, hfv,
      hphi⟩ := lower_conditional_eq_ok_iff.1 h
    obtain rfl := Option.some.inj (hty.symm.trans hty')
    obtain ⟨-, rfl⟩ := Prod.mk.inj hphi
    obtain ⟨cty, hcty, htest'⟩ := lowerCondition_takes htest
    have htrue := lower_grows htv
    have hfalse := lower_grows hfv
    have hjoin := phi_takes (joinBuilder b₄ b₂.function.blocks.size) ty
      [(tv, b₃.cursor?.getD b₂.function.blocks.size),
        (fv, b₄.cursor?.getD (b₂.function.blocks.size + 1))] "iftmp"
    have hin₄ := ((htrue.joinBuilder hfalse).trans hjoin.grows).insts.trans hin
    have hin₃ := (htrue.elseBuilder.trans hfalse).insts.trans hin₄
    have hin₂ := ((Builder.Grows.branch b₂ test).trans htrue).insts.trans hin₃
    have huse : ∀ x ∈ [tv, fv], f.operandTy? x = some ty := fun x hx =>
      hf.operandTy?_of_demands ((hjoin.demands x hx).mono hin)
    refine .conditional ?_ ?_ ?_ htty hfty
    · refine ihc b b₁ value cty hvalue (htest'.grows.insts.trans hin₂) hcty ?_
      exact hf.operandTy?_of_demands ((htest'.demands value (by simp)).mono hin₂)
    · exact iht _ b₃ tv ty htv hin₃ (by rw [htty]; exact hty) (huse tv (by simp))
    · exact ihf _ b₄ fv ty hfv hin₄ (by rw [hfty]; exact hty) (huse fv (by simp))

end Verified

end Expressions

/-! ### Definitions -/

section Definitions

variable {m : Module} {declaration f : Function} {d : Definition}

theorem resolved_of_mapM_lowerParam {params : List ScalarLang.Param} {ps : List Param}
    (h : params.mapM lowerParam = .ok ps) : ∀ p ∈ params, p.ty.isResolved := by
  induction params generalizing ps with
  | nil => exact fun p hp => absurd hp List.not_mem_nil
  | cons p params ih =>
    rw [List.mapM_cons, bind_eq_ok_iff] at h
    obtain ⟨q, hq, h⟩ := h
    obtain ⟨qs, hqs, -⟩ := bind_eq_ok_iff.1 h
    obtain ⟨ty, hty, -⟩ := bind_eq_ok_iff.1 hq
    exact List.forall_mem_cons.2 ⟨Ty.isResolved_of_ofNum? (lowerTy_eq_ok_iff.1 hty), ih hqs⟩

/-- A prototype that has a declaration has resolved types only. -/
theorem resolved_of_declare {p : Prototype} (h : declare p = .ok f) :
    (∀ q ∈ p.params, q.ty.isResolved) ∧ p.ret.isResolved := by
  obtain ⟨ps, hps, h⟩ := bind_eq_ok_iff.1 h
  obtain ⟨ty, hty, -⟩ := bind_eq_ok_iff.1 h
  exact ⟨resolved_of_mapM_lowerParam hps, Ty.isResolved_of_ofNum? (lowerTy_eq_ok_iff.1 hty)⟩

theorem entry_stands (h : declaration.Bare) : (entryBuilder declaration).Stands := by
  refine ⟨0, ?_, ?_⟩
  · rw [entryBuilder_eq h]
    rfl
  · rw [size_blocks_entry h]
    exact Nat.zero_lt_one

/-- **A body that is lowered to a function that passes verification is typed.**  The value of the body is
returned in the block where lowering has come to an end. -/
theorem typed_of_lowerBody (hbare : declaration.Bare)
    (hsig : declaration.HasSignature d.proto.signature)
    (h : lowerBody m declaration d = .ok f) :
    d.body.Typed d.proto.params m.signature? ∧ d.body.ty = d.proto.ret := by
  obtain ⟨hret, v, b, hlow, rfl, hverify⟩ := lowerBody_eq_ok_iff.1 h
  have hf := Function.verify_eq_ok_iff.1 hverify
  have hext := entry_extends hbare
  have hgrows := lower_grows hlow
  have hparams : TakesParams d.proto.params (b.terminate (.ret v)).function := by
    have : (b.terminate (.ret v)).function.params = declaration.params := by
      rw [← hext.params, ← hgrows.params]
      simp [Builder.terminate]
    rw [TakesParams, this]
    exact hsig.params
  have hfret : (b.terminate (.ret v)).function.ret = declaration.ret := by
    rw [← hext.ret, ← hgrows.ret]
    simp [Builder.terminate]
  obtain ⟨here, hc, hlt⟩ := hgrows.stands (entry_stands hbare)
  have hblock : (b.terminate (.ret v)).function.block? here =
      some { b.function.blocks[here] with terminator? := some (.ret v) } := by
    have hhere : b.function.block? here = some b.function.blocks[here] :=
      Array.getElem?_eq_getElem hlt
    rw [Builder.block?_terminate _ hc, if_pos rfl, hhere]
    rfl
  have hv := hf.operandTy?_of_ret hblock rfl
  rw [hfret] at hv
  refine ⟨typed_of_lower hf hparams d.body _ b v declaration.ret hlow ?_ ?_ hv, hret⟩
  · intro i inst hi
    rw [Function.inst?, Builder.insts_terminate]
    exact hi
  · rw [hret]
    exact hsig.ret

end Definitions

namespace Module

/-- A module with the declaration of a prototype has the signatures that the body is read against. -/
theorem signature?_insert {m : Module} {declaration : Function} {p : Prototype}
    (hnew : m.contains p.name = false) (hname : declaration.name = p.name)
    (hsig : declaration.HasSignature p.signature) :
    (m.insert declaration).signature? = Program.ownSignatures m.signature? p := by
  funext name
  have hnew' : m.contains declaration.name = false := hname ▸ hnew
  rw [signature?_eq_ite (functions_insert hnew') hnew' hsig, hname]
  rfl

/-- **The definitions that become functions.**  A definition becomes a function of a module exactly if its
name is new, the types of its parameters and of its result are resolved, and its body is typed and has
the result type: every node carries the type that the rules derive for it from the parameters, the
functions of the module and the definition itself.  Nothing is assumed of the definition, which may carry
any types at all, or of the module. -/
theorem generate_accepts_iff (m : Module) (d : Definition) :
    (∃ f, (m.generate d).1 = .ok f) ↔
      m.contains d.proto.name = false ∧ (∀ p ∈ d.proto.params, p.ty.isResolved) ∧
        d.proto.ret.isResolved ∧
        d.body.Typed d.proto.params (Program.ownSignatures m.signature? d.proto) ∧
        d.body.ty = d.proto.ret := by
  constructor
  · rintro ⟨f, hf⟩
    obtain ⟨hnew, declaration, hdecl, hbody, -⟩ :=
      generate_eq_ok (show m.generate d = (.ok f, (m.generate d).2) from Prod.ext hf rfl)
    obtain ⟨hparams, hret⟩ := resolved_of_declare hdecl
    obtain ⟨declaration', hdecl', hname, hsig, hbare⟩ := declare_typed hparams hret
    obtain rfl := Except.ok.inj (hdecl.symm.trans hdecl')
    obtain ⟨htyped, hty⟩ := typed_of_lowerBody hbare hsig hbody
    rw [signature?_insert hnew hname hsig] at htyped
    exact ⟨hnew, hparams, hret, htyped, hty⟩
  · rintro ⟨hnew, hparams, hret, htyped, hty⟩
    obtain ⟨declaration, hdecl, hname, hsig, hbare⟩ := declare_typed hparams hret
    rw [← signature?_insert hnew hname hsig] at htyped
    obtain ⟨v, b, -, -, -, hbody⟩ := lowerBody_of_typed htyped hty hbare hsig
    refine ⟨(b.terminate (.ret v)).function, ?_⟩
    rw [generate, if_neg (by rw [hnew]; decide), hdecl]
    simp only [hbody]

end Module

end Ir

end ScalarLang
