import ScalarLang.Proofs.Layout

/-!
# What it means to be verified

A function passes verification exactly if its layout is complete and every instruction and every end of
a block is typed: its operands have the types it needs and are defined at an earlier place.

* `Ir.Function.Uses` — the type that an operand has at a place.
* `Ir.Inst.TypedBy`, `Ir.Terminator.TypedBy` — the typing rules.
* `Ir.Function.Verified` — everything that verification asks for.
* `Ir.Function.verify_eq_ok_iff` — verification passes exactly then.
-/

namespace ScalarLang

namespace Ir

/-! ### The typing rules -/

section Rules

variable {m : Module} {use use' any any' : Operand → Ty → Prop} {preds : List BlockId}

/-- The typing rules of instructions.  `use` says which operands have which types where the instruction
stands, `any` which have them anywhere, and `preds` are the predecessors of its block. -/
def Inst.TypedBy (m : Module) (use any : Operand → Ty → Prop) (preds : List BlockId) (i : Inst) :
    Prop :=
  match i.op with
  | .binary code lhs rhs => use lhs code.ty ∧ use rhs code.ty ∧ i.ty = code.ty
  | .icmp _ lhs rhs => use lhs .i64 ∧ use rhs .i64 ∧ i.ty = .i1
  | .fcmp _ lhs rhs => use lhs .double ∧ use rhs .double ∧ i.ty = .i1
  | .zext v => use v .i1 ∧ i.ty = .i64
  | .uitofp v => use v .i1 ∧ i.ty = .double
  | .call callee args =>
    ∃ target, m.get? callee = some target ∧ i.ty = target.ret ∧
      List.Forall₂ (fun v param => use v param.ty) args target.params
  | .phi arms =>
    arms.length = preds.length ∧ ∀ arm ∈ arms, arm.2 ∈ preds ∧ any arm.1 i.ty

/-- The rules only ask for operands to have types. -/
theorem Inst.TypedBy.mono {i : Inst} (h : i.TypedBy m use any preds)
    (huse : ∀ v ty, use v ty → use' v ty) (hany : ∀ v ty, any v ty → any' v ty) :
    i.TypedBy m use' any' preds := by
  unfold TypedBy at h ⊢
  cases hop : i.op with
  | binary code lhs rhs =>
    rw [hop] at h
    exact ⟨huse _ _ h.1, huse _ _ h.2.1, h.2.2⟩
  | icmp pred lhs rhs =>
    rw [hop] at h
    exact ⟨huse _ _ h.1, huse _ _ h.2.1, h.2.2⟩
  | fcmp pred lhs rhs =>
    rw [hop] at h
    exact ⟨huse _ _ h.1, huse _ _ h.2.1, h.2.2⟩
  | zext v =>
    rw [hop] at h
    exact ⟨huse _ _ h.1, h.2⟩
  | uitofp v =>
    rw [hop] at h
    exact ⟨huse _ _ h.1, h.2⟩
  | call callee args =>
    rw [hop] at h
    obtain ⟨target, htarget, hty, hargs⟩ := h
    exact ⟨target, htarget, hty, hargs.imp fun v param hv => huse _ _ hv⟩
  | phi arms =>
    rw [hop] at h
    exact ⟨h.1, fun arm harm => ⟨(h.2 arm harm).1, hany _ _ (h.2 arm harm).2⟩⟩

/-- The typing rules of the ends of blocks, in a function with result type `ret`. -/
def Terminator.TypedBy (ret : Ty) (use : Operand → Ty → Prop) : Terminator → Prop
  | .ret v => use v ret
  | .br _ => True
  | .condBr cond _ _ => use cond .i1

theorem Terminator.TypedBy.mono {ret : Ty} {t : Terminator} (h : t.TypedBy ret use)
    (huse : ∀ v ty, use v ty → use' v ty) : t.TypedBy ret use' := by
  cases t with
  | ret v => exact huse _ _ h
  | br target => trivial
  | condBr cond onTrue onFalse => exact huse _ _ h

end Rules

namespace Function

/-! ### Operands -/

/-- The operand `v` has type `ty` at a place; without a place it is defined somewhere. -/
def Uses (f : Function) (site? : Option Site) (v : Operand) (ty : Ty) : Prop :=
  f.useTy f.placement site? v = .ok ty

theorem useTy_inst_eq_ok_iff {f : Function} {p : Placement} {site? : Option Site} {i : InstId}
    {ty : Ty} :
    f.useTy p site? (.inst i) = .ok ty ↔
      ∃ d inst, p.site? i = some d ∧ f.inst? i = some inst ∧ inst.ty = ty ∧
        ∀ s ∈ site?, d.before s = true := by
  rw [useTy]
  cases hd : p.site? i with
  | none => simp
  | some d =>
    cases hi : f.inst? i with
    | none => simp
    | some inst =>
      cases site? with
      | none => simp
      | some s => simp only [Option.all_some]; split <;> simp_all

/-- An operand that is used has that type whatever the place. -/
theorem operandTy?_of_useTy {f : Function} {p : Placement} {site? : Option Site} {v : Operand}
    {ty : Ty} (h : f.useTy p site? v = .ok ty) : f.operandTy? v = some ty := by
  cases v with
  | int x => exact congrArg some (Except.ok.inj h)
  | double x => exact congrArg some (Except.ok.inj h)
  | arg index =>
    rw [useTy] at h
    split at h
    · next param hp => rw [operandTy?, hp, ← Except.ok.inj h]; rfl
    · cases h
  | inst i =>
    obtain ⟨d, inst, -, hi, rfl, -⟩ := useTy_inst_eq_ok_iff.1 h
    rw [operandTy?, hi]
    rfl

theorem expectTy_eq_ok_iff {f : Function} {p : Placement} {site : Site} {role : Role} {ty : Ty}
    {v : Operand} :
    f.expectTy p site role ty v = .ok () ↔ f.useTy p (some site) v = .ok ty := by
  rw [expectTy, bind_eq_ok_iff]
  constructor
  · rintro ⟨found, hf, h⟩
    split at h
    · next e => rw [hf, e]
    · cases h
  · intro h
    exact ⟨ty, h, if_pos rfl⟩

/-! ### Instructions -/

/-- The instruction `i`, in block `id` at `site`, follows the typing rules. -/
def InstTyped (f : Function) (m : Module) (id : BlockId) (site : Site) (i : Inst) : Prop :=
  i.TypedBy m (f.Uses (some site)) (f.Uses none) (f.placement.preds id)

theorem checkArgs_eq_ok_iff {f : Function} {p : Placement} {site : Site} {name : String}
    {args : List Operand} {params : List Param} (hlen : params.length = args.length) :
    f.checkArgs p site name args params = .ok () ↔
      List.Forall₂ (fun v param => f.useTy p (some site) v = .ok param.ty) args params := by
  induction args generalizing params with
  | nil =>
    rw [List.length_nil, List.length_eq_zero_iff] at hlen
    subst hlen
    simp [checkArgs]
  | cons v args ih =>
    cases params with
    | nil => simp at hlen
    | cons param params =>
      simp only [List.length_cons, Nat.add_right_cancel_iff] at hlen
      rw [checkArgs, bind_unit_eq_ok_iff, List.forall₂_cons, expectTy_eq_ok_iff, ih hlen]

theorem checkIncoming_eq_ok_iff {f : Function} {p : Placement} {preds : List BlockId} {i : Inst}
    {arms : List (Operand × BlockId)} :
    f.checkIncoming p preds i arms = .ok () ↔
      ∀ arm ∈ arms, arm.2 ∈ preds ∧ f.useTy p none arm.1 = .ok i.ty := by
  induction arms with
  | nil => simp [checkIncoming]
  | cons arm arms ih =>
    obtain ⟨v, source⟩ := arm
    rw [checkIncoming, List.forall_mem_cons]
    by_cases hs : preds.contains source
    · have hs' : source ∈ preds := by simpa using hs
      rw [if_pos hs, bind_eq_ok_iff]
      constructor
      · rintro ⟨found, hf, h⟩
        split at h
        · next e => exact ⟨⟨hs', by rw [hf, e]⟩, ih.1 h⟩
        · cases h
      · rintro ⟨⟨-, h⟩, h'⟩
        exact ⟨i.ty, h, by rw [if_pos rfl]; exact ih.2 h'⟩
    · have hs' : source ∉ preds := by simpa using hs
      rw [if_neg hs, bind_eq_ok_iff]
      simp [hs']

theorem checkInst_eq_ok_iff {f : Function} {m : Module} {id : BlockId} {site : Site} {i : Inst} :
    f.checkInst m f.placement id site i = .ok () ↔ f.InstTyped m id site i := by
  have produced : f.checkInst m f.placement id site i = .ok () ↔
      f.producedTy m f.placement id site i = .ok i.ty := by
    rw [checkInst, bind_eq_ok_iff]
    constructor
    · rintro ⟨ty, hty, h⟩
      split at h
      · next e => rw [hty, e]
      · cases h
    · intro h
      exact ⟨i.ty, h, if_pos rfl⟩
  rw [produced, producedTy, InstTyped, Inst.TypedBy]
  cases i.op with
  | binary code lhs rhs =>
    simp only [bind_unit_eq_ok_iff, expectTy_eq_ok_iff, pure_eq_ok_iff, Uses]
    simp only [eq_comm (a := i.ty)]
  | icmp pred lhs rhs =>
    simp only [bind_unit_eq_ok_iff, expectTy_eq_ok_iff, pure_eq_ok_iff, Uses]
    simp only [eq_comm (a := i.ty)]
  | fcmp pred lhs rhs =>
    simp only [bind_unit_eq_ok_iff, expectTy_eq_ok_iff, pure_eq_ok_iff, Uses]
    simp only [eq_comm (a := i.ty)]
  | zext v =>
    simp only [bind_unit_eq_ok_iff, expectTy_eq_ok_iff, pure_eq_ok_iff, Uses]
    simp only [eq_comm (a := i.ty)]
  | uitofp v =>
    simp only [bind_unit_eq_ok_iff, expectTy_eq_ok_iff, pure_eq_ok_iff, Uses]
    simp only [eq_comm (a := i.ty)]
  | call callee args =>
    simp only [checkCall]
    cases hm : m.get? callee with
    | none => simp
    | some target =>
      by_cases hlen : target.params.length = args.length
      · simp only [Option.some.injEq, exists_eq_left', hlen, ne_eq, not_true_eq_false, if_false,
          bind_unit_eq_ok_iff, checkArgs_eq_ok_iff hlen, pure_eq_ok_iff, Uses]
        rw [and_comm, eq_comm]
      · have : ∀ R : Operand → Param → Prop, ¬ List.Forall₂ R args target.params :=
          fun R h => hlen h.length_eq.symm
        simp [hlen, this]
  | phi arms =>
    simp only [checkPhi]
    by_cases hlen : arms.length = (f.placement.preds id).length
    · simp only [hlen, ne_eq, not_true_eq_false, if_false, bind_unit_eq_ok_iff,
        checkIncoming_eq_ok_iff, pure_eq_ok_iff, and_true, true_and, Uses]
    · simp [hlen]

/-! ### Blocks -/

/-- The end `t` of a block, at `site`, follows the typing rules. -/
def TerminatorTyped (f : Function) (site : Site) (t : Terminator) : Prop :=
  t.TypedBy f.ret (f.Uses (some site))

theorem checkTerminator_eq_ok_iff {f : Function} {site : Site} {t : Terminator} :
    f.checkTerminator f.placement site t = .ok () ↔ f.TerminatorTyped site t := by
  cases t with
  | ret v => exact expectTy_eq_ok_iff
  | br target => exact ⟨fun _ => trivial, fun _ => rfl⟩
  | condBr cond onTrue onFalse => exact expectTy_eq_ok_iff

/-- The instructions in front of the one at `j` that exist are all phis. -/
def PhisBefore (f : Function) (insts : List InstId) (j : Nat) : Prop :=
  ∀ j' < j, ∀ i' inst', insts[j']? = some i' → f.inst? i' = some inst' → inst'.op.isPhi = true

theorem phisBefore_zero (f : Function) (insts : List InstId) : f.PhisBefore insts 0 := by
  intro j' hj'
  exact absurd hj' (Nat.not_lt_zero j')

theorem phisBefore_succ_cons_iff {f : Function} {i : InstId} {insts : List InstId} {j : Nat} :
    f.PhisBefore (i :: insts) (j + 1) ↔
      (∀ inst, f.inst? i = some inst → inst.op.isPhi = true) ∧ f.PhisBefore insts j := by
  constructor
  · intro h
    exact ⟨fun inst hi => h 0 (Nat.succ_pos j) i inst rfl hi,
      fun j' hj' i' inst' hi' => h (j' + 1) (Nat.succ_lt_succ hj') i' inst' hi'⟩
  · rintro ⟨h₀, h⟩ j' hj' i' inst' hi' hinst
    cases j' with
    | zero =>
      rw [List.getElem?_cons_zero, Option.some.injEq] at hi'
      exact h₀ inst' (hi' ▸ hinst)
    | succ j' => exact h j' (Nat.lt_of_succ_lt_succ hj') i' inst' hi' hinst

theorem checkInsts_eq_ok_iff {f : Function} {m : Module} {id : BlockId} {phis : Bool}
    {site : Site} {insts : List InstId} :
    f.checkInsts m f.placement id phis site insts = .ok () ↔
      ∀ j i inst, insts[j]? = some i → f.inst? i = some inst →
        f.InstTyped m id ⟨site.block, site.index + j⟩ inst ∧
          (inst.op.isPhi = true → phis = true ∧ f.PhisBefore insts j) := by
  induction insts generalizing phis site with
  | nil => simp [checkInsts]
  | cons i₀ insts ih =>
    have hsite : ∀ j, site.index + 1 + j = site.index + (j + 1) := fun j => by omega
    rw [checkInsts]
    cases h₀ : f.inst? i₀ with
    | none =>
      simp only [ih, hsite]
      constructor
      · intro h j i inst hi hinst
        cases j with
        | zero =>
          rw [List.getElem?_cons_zero, Option.some.injEq] at hi
          rw [← hi, h₀] at hinst
          cases hinst
        | succ j =>
          refine ⟨(h j i inst hi hinst).1, fun hp => ⟨((h j i inst hi hinst).2 hp).1, ?_⟩⟩
          rw [phisBefore_succ_cons_iff]
          refine ⟨fun inst' he => ?_, ((h j i inst hi hinst).2 hp).2⟩
          rw [h₀] at he
          cases he
      · intro h j i inst hi hinst
        obtain ⟨ht, hp⟩ := h (j + 1) i inst hi hinst
        exact ⟨ht, fun e => ⟨(hp e).1, (phisBefore_succ_cons_iff.1 (hp e).2).2⟩⟩
    | some inst₀ =>
      simp only []
      by_cases hlate : (inst₀.op.isPhi && !phis) = true
      · rw [if_pos hlate]
        simp only [Bool.and_eq_true, Bool.not_eq_true'] at hlate
        constructor
        · intro h
          cases h
        · intro h
          have := ((h 0 i₀ inst₀ rfl h₀).2 hlate.1).1
          rw [hlate.2] at this
          cases this
      · rw [if_neg hlate, bind_unit_eq_ok_iff, checkInst_eq_ok_iff, ih]
        simp only [hsite, Bool.and_eq_true]
        constructor
        · rintro ⟨ht₀, h⟩ j i inst hi hinst
          cases j with
          | zero =>
            rw [List.getElem?_cons_zero, Option.some.injEq] at hi
            rw [← hi, h₀, Option.some.injEq] at hinst
            subst hinst
            refine ⟨ht₀, fun hp => ⟨?_, phisBefore_zero f _⟩⟩
            simpa [hp] using hlate
          | succ j =>
            obtain ⟨ht, hp⟩ := h j i inst hi hinst
            refine ⟨ht, fun e => ⟨(hp e).1.1, phisBefore_succ_cons_iff.2 ⟨?_, (hp e).2⟩⟩⟩
            intro inst' he
            rw [h₀, Option.some.injEq] at he
            exact he ▸ (hp e).1.2
        · intro h
          refine ⟨(h 0 i₀ inst₀ rfl h₀).1, fun j i inst hi hinst => ?_⟩
          obtain ⟨ht, hp⟩ := h (j + 1) i inst hi hinst
          refine ⟨ht, fun e => ?_⟩
          obtain ⟨hphis, hbefore⟩ := hp e
          rw [phisBefore_succ_cons_iff] at hbefore
          exact ⟨⟨hphis, hbefore.1 inst₀ h₀⟩, hbefore.2⟩

/-- What is asked of block `id` at index `k` of the layout. -/
structure BlockTyped (f : Function) (m : Module) (k : Nat) (id : BlockId) (b : Block) : Prop where
  insts : ∀ j i inst, b.insts[j]? = some i → f.inst? i = some inst → f.InstTyped m id ⟨k, j⟩ inst
  phis : ∀ j i inst, b.insts[j]? = some i → f.inst? i = some inst → inst.op.isPhi = true →
    f.PhisBefore b.insts j
  terminator : ∀ t, b.terminator? = some t → f.TerminatorTyped ⟨k, b.insts.length⟩ t

theorem checkBlocks_cons_eq_ok_iff {f : Function} {m : Module} {p : Placement} {index : Nat}
    {id : BlockId} {ids : List BlockId} :
    f.checkBlocks m p index (id :: ids) = .ok () ↔
      ∃ b, f.block? id = some b ∧ f.checkInsts m p id true ⟨index, 0⟩ b.insts = .ok () ∧
        (∀ t, b.terminator? = some t →
          f.checkTerminator p ⟨index, b.insts.length⟩ t = .ok ()) ∧
        f.checkBlocks m p (index + 1) ids = .ok () := by
  rw [checkBlocks, bind_eq_ok_iff]
  refine exists_congr fun b => ?_
  rw [getBlock_eq_ok_iff, bind_unit_eq_ok_iff]
  cases b.terminator? with
  | none => simp [bind_unit_eq_ok_iff]
  | some t => simp [bind_unit_eq_ok_iff]

theorem checkBlocks_eq_ok_iff {f : Function} {m : Module} {index : Nat} {ids : List BlockId} :
    f.checkBlocks m f.placement index ids = .ok () ↔
      ∀ k id, ids[k]? = some id → ∃ b, f.block? id = some b ∧ f.BlockTyped m (index + k) id b := by
  induction ids generalizing index with
  | nil => simp [checkBlocks]
  | cons id₀ ids ih =>
    rw [checkBlocks_cons_eq_ok_iff]
    simp only [checkTerminator_eq_ok_iff, checkInsts_eq_ok_iff, ih, Nat.zero_add, true_and]
    constructor
    · rintro ⟨b, hb, hi, ht, h⟩ k id hk
      cases k with
      | zero =>
        rw [List.getElem?_cons_zero, Option.some.injEq] at hk
        subst hk
        exact ⟨b, hb, fun j i inst h₁ h₂ => (hi j i inst h₁ h₂).1,
          fun j i inst h₁ h₂ => (hi j i inst h₁ h₂).2, ht⟩
      | succ k =>
        obtain ⟨b', hb', h'⟩ := h k id hk
        refine ⟨b', hb', ?_⟩
        rw [show index + (k + 1) = index + 1 + k by omega]
        exact h'
    · intro h
      obtain ⟨b, hb, hi, hp, ht⟩ := h 0 id₀ rfl
      refine ⟨b, hb, fun j i inst h₁ h₂ => ⟨hi j i inst h₁ h₂, hp j i inst h₁ h₂⟩, ht, ?_⟩
      intro k id hk
      obtain ⟨b', hb', h'⟩ := h (k + 1) id hk
      refine ⟨b', hb', ?_⟩
      rw [show index + 1 + k = index + (k + 1) by omega]
      exact h'

/-! ### Functions -/

/-- Everything that verification asks of a function. -/
structure Verified (f : Function) (m : Module) : Prop where
  complete : f.Complete
  blocks : ∀ k id, f.layout[k]? = some id → ∃ b, f.block? id = some b ∧ f.BlockTyped m k id b

/-- Every block of a verified function has a place, and follows the rules there. -/
theorem Verified.exists_block {f : Function} {m : Module} (h : f.Verified m) {id : BlockId}
    (hlt : id < f.blocks.size) :
    ∃ k b, f.layout[k]? = some id ∧ f.block? id = some b ∧ f.BlockTyped m k id b := by
  obtain ⟨k, hk⟩ := List.mem_iff_getElem?.1 (h.complete.mem_layout_iff.2 hlt)
  obtain ⟨b, hb, htyped⟩ := h.blocks k id hk
  exact ⟨k, b, hk, hb, htyped⟩

/-- **Verification passes exactly for verified functions.** -/
theorem verify_eq_ok_iff {f : Function} {m : Module} : f.verify m = .ok () ↔ f.Verified m := by
  have hdefects : f.verify m = .ok () ↔ f.defects m = .ok () := by
    unfold verify
    split
    · next h => simp [h]
    · next d h => simp [h]
  rw [hdefects, defects, bind_eq_ok_iff]
  constructor
  · rintro ⟨p, hp, h⟩
    rw [place_eq_ok_iff] at hp
    obtain ⟨hc, rfl⟩ := hp
    rw [checkBlocks_eq_ok_iff] at h
    exact ⟨hc, fun k id hk => by simpa using h k id hk⟩
  · rintro ⟨hc, h⟩
    refine ⟨f.placement, (place_eq_ok_iff f _).2 ⟨hc, rfl⟩, ?_⟩
    rw [checkBlocks_eq_ok_iff]
    intro k id hk
    simpa using h k id hk

end Function

end Ir

end ScalarLang
