import ScalarLang.Proofs.Modules
import ScalarLang.Proofs.Runs
import ScalarLang.Proofs.Verified

/-!
# Verified functions are type safe

A run of verified functions keeps every value in the type that its instruction, parameter or result
has.  So it never meets a value of a wrong type, a call that does not fit its callee or a reference that
leads nowhere.

* `Machine.Fault.Permitted` — the faults that are left.
* `Machine.Frame.Typed` — a frame of a verified function whose values have their types.
* `Machine.Frame.Reads`, `Machine.Frame.Typed.step_meets_of_reads` — what a frame reads where it stands,
  and what its step leads to in terms of that.
* `Machine.StackTyped` — frames that wait for results of the types they will get.
* `Machine.Thread.step_typed`, `Machine.Thread.run_typed` — one step and a whole run keep the types.
* `Machine.execute_typed` — type safety.
-/

namespace ScalarLang

namespace Machine

open Ir

/-- The faults that a run of verified functions can end with. -/
inductive Fault.Permitted (m : Ir.Module) (bound : Nat) : Fault → Prop
  | divisionByZero : Permitted m bound .divisionByZero
  | stackOverflow : Permitted m bound (.stackOverflow bound)
  | notDefined {f : Function} (h : m.get? f.name = some f) (hf : f.isDeclaration = true) :
      Permitted m bound (.notDefined f.name)
  | notComputed (inst : Nat) (function : String) : Permitted m bound (.notComputed inst function)
  | uncoveredEdge (phi : String) : Permitted m bound (.uncoveredEdge phi)

/-! ### Operations -/

section Operations

variable {E : Fault → Prop}

theorem expectInt_meets {v : Value} (h : v.ty = .i64) :
    Meets (fun x => v = .int x) E (expectInt v) := by
  cases v with
  | int x => rfl
  | bool x => cases h
  | double x => cases h

theorem expectDouble_meets {v : Value} (h : v.ty = .double) :
    Meets (fun x => v = .double x) E (expectDouble v) := by
  cases v with
  | double x => rfl
  | bool x => cases h
  | int x => cases h

theorem expectBool_meets {v : Value} (h : v.ty = .i1) :
    Meets (fun x => v = .bool x) E (expectBool v) := by
  cases v with
  | bool x => rfl
  | int x => cases h
  | double x => cases h

theorem intArith_meets {op : Int64 → Int64 → Int64} {a b : Value} (ha : a.ty = .i64)
    (hb : b.ty = .i64) : Meets (fun v => v.ty = .i64) E (intArith op a b) := by
  refine (expectInt_meets ha).bind fun x _ => ?_
  exact (expectInt_meets hb).bind fun y _ => rfl

theorem doubleArith_meets {op : Double → Double → Double} {a b : Value} (ha : a.ty = .double)
    (hb : b.ty = .double) : Meets (fun v => v.ty = .double) E (doubleArith op a b) := by
  refine (expectDouble_meets ha).bind fun x _ => ?_
  exact (expectDouble_meets hb).bind fun y _ => rfl

/-- Arithmetic on values of its type gives a value of its type; only a division can fail. -/
theorem arith_meets (hE : E .divisionByZero) {code : Arith} {a b : Value} (ha : a.ty = code.ty)
    (hb : b.ty = code.ty) : Meets (fun v => v.ty = code.ty) E (arith code a b) := by
  cases code with
  | add => exact intArith_meets ha hb
  | sub => exact intArith_meets ha hb
  | mul => exact intArith_meets ha hb
  | sdiv =>
    refine (expectInt_meets ha).bind fun x _ => ?_
    refine (expectInt_meets hb).bind fun y _ => ?_
    split
    · exact hE
    · exact rfl
  | fadd => exact doubleArith_meets ha hb
  | fsub => exact doubleArith_meets ha hb
  | fmul => exact doubleArith_meets ha hb
  | fdiv => exact doubleArith_meets ha hb

end Operations

theorem map_ty_eq_of_forall₂ {params : List Ir.Param} {values : List Value}
    (h : List.Forall₂ (fun p v => v.ty = p.ty) params values) :
    values.map Value.ty = params.map Ir.Param.ty := by
  induction h with
  | nil => rfl
  | cons h _ ih => rw [List.map_cons, List.map_cons, h, ih]

/-! ### Frames -/

namespace Frame

/-- A frame of a verified function whose arguments and values have the types they are declared
with. -/
structure Typed (m : Ir.Module) (fr : Frame) : Prop where
  verified : fr.function.Verified m
  args : fr.args.map Value.ty = fr.function.params.map Ir.Param.ty
  values : ∀ i v inst, fr.values[i]? = some (some v) → fr.function.inst? i = some inst → v.ty = inst.ty
  block : fr.block < fr.function.blocks.size

/-- The instruction at hand has type `ty`. -/
def Awaits (fr : Frame) (ty : Ty) : Prop :=
  ∃ b i inst, fr.function.block? fr.block = some b ∧ b.insts[fr.pos]? = some i ∧
    fr.function.inst? i = some inst ∧ inst.ty = ty

variable {m : Ir.Module} {bound : Nat} {fr : Frame}

theorem Typed.get_meets (h : fr.Typed m) {v : Operand} {ty : Ty}
    (hv : fr.function.operandTy? v = some ty) :
    Meets (fun x => x.ty = ty) (Fault.Permitted m bound) (fr.get v) := by
  cases v with
  | int x => exact Option.some.inj hv
  | double x => exact Option.some.inj hv
  | arg index =>
    -- the types of the arguments are those of the parameters, so there are as many
    have htys := congrArg (fun l => l[index]?) h.args
    simp only [List.getElem?_map] at htys
    rw [Function.operandTy?] at hv
    rw [hv] at htys
    obtain ⟨x, hx, hty⟩ := Option.map_eq_some_iff.1 htys
    rw [get, hx]
    exact hty
  | inst i =>
    rw [Function.operandTy?] at hv
    obtain ⟨inst, hi, hty⟩ := Option.map_eq_some_iff.1 hv
    rw [get]
    split
    · next x hx => exact (h.values i x inst hx hi).trans hty
    · exact .notComputed i fr.function.name

theorem Typed.get_of_uses (h : fr.Typed m) {site? : Option Site} {v : Operand} {ty : Ty}
    (hv : fr.function.Uses site? v ty) :
    Meets (fun x => x.ty = ty) (Fault.Permitted m bound) (fr.get v) :=
  h.get_meets (Function.operandTy?_of_useTy hv)

/-- What an instruction of type `ty` may amount to: a value of this type, or a call of a function
that gives one and takes the arguments passed. -/
def ActionTyped (m : Ir.Module) (ty : Ty) : Action → Prop
  | .value v => v.ty = ty
  | .call callee args => ∃ target, m.get? callee = some target ∧ ty = target.ret ∧
      args.map Value.ty = target.params.map Ir.Param.ty

/-- Whatever the frame reads where it stands has its type, or is missing for a reason in `E`: the
operands of an instruction or of the end of the block, and the entry of a `phi`. -/
structure Reads (fr : Frame) (E : Fault → Prop) : Prop where
  operands : ∀ (k j : Nat) v ty, fr.function.layout[k]? = some fr.block → j ≤ fr.pos →
    fr.function.Uses (some ⟨k, j⟩) v ty → Meets (fun x => x.ty = ty) E (fr.get v)
  entries : ∀ i inst arms, fr.At i inst → inst.op = .phi arms →
    (∀ arm ∈ arms, fr.function.Uses none arm.1 inst.ty) →
    Meets (fun x => x.ty = inst.ty) E (fr.incoming inst.name arms)

theorem Typed.reads (h : fr.Typed m) : fr.Reads (Fault.Permitted m bound) := by
  refine ⟨fun k j v ty _ _ hv => h.get_of_uses hv, fun i inst arms _ _ harms => ?_⟩
  unfold incoming
  split
  · next arm harm => exact h.get_of_uses (harms arm (List.mem_of_find?_eq_some harm))
  · exact .uncoveredEdge inst.name

/-- An instruction whose operands are read amounts to what it may. -/
theorem Reads.perform_meets {E : Fault → Prop} (h : fr.Reads E) (hE : E .divisionByZero) {k : Nat}
    (hk : fr.function.layout[k]? = some fr.block) {i : InstId} {inst : Inst} (hat : fr.At i inst)
    (hi : fr.function.InstTyped m fr.block ⟨k, fr.pos⟩ inst) :
    Meets (ActionTyped m inst.ty) E (fr.perform inst) := by
  have hget : ∀ v ty, fr.function.Uses (some ⟨k, fr.pos⟩) v ty →
      Meets (fun x => x.ty = ty) E (fr.get v) :=
    fun v ty hv => h.operands k fr.pos v ty hk (Nat.le_refl _) hv
  unfold Function.InstTyped Inst.TypedBy at hi
  unfold perform
  split
  · next code lhs rhs hop =>
    rw [hop] at hi
    obtain ⟨hl, hr, hty⟩ := hi
    refine (hget _ _ hl).bind fun a ha => ?_
    refine (hget _ _ hr).bind fun b hb => ?_
    refine (arith_meets hE ha hb).bind fun v hv => ?_
    exact hv.trans hty.symm
  · next pred lhs rhs hop =>
    rw [hop] at hi
    obtain ⟨hl, hr, hty⟩ := hi
    refine (hget _ _ hl).bind fun a ha => ?_
    refine (expectInt_meets ha).bind fun x _ => ?_
    refine (hget _ _ hr).bind fun b hb => ?_
    exact (expectInt_meets hb).bind fun y _ => hty.symm
  · next pred lhs rhs hop =>
    rw [hop] at hi
    obtain ⟨hl, hr, hty⟩ := hi
    refine (hget _ _ hl).bind fun a ha => ?_
    refine (expectDouble_meets ha).bind fun x _ => ?_
    refine (hget _ _ hr).bind fun b hb => ?_
    exact (expectDouble_meets hb).bind fun y _ => hty.symm
  · next v hop =>
    rw [hop] at hi
    obtain ⟨hv, hty⟩ := hi
    refine (hget _ _ hv).bind fun a ha => ?_
    exact (expectBool_meets ha).bind fun x _ => hty.symm
  · next v hop =>
    rw [hop] at hi
    obtain ⟨hv, hty⟩ := hi
    refine (hget _ _ hv).bind fun a ha => ?_
    exact (expectBool_meets ha).bind fun x _ => hty.symm
  · next callee args hop =>
    rw [hop] at hi
    obtain ⟨target, hm, hty, hargs⟩ := hi
    refine (Meets.mapM hargs fun v p hv => hget _ _ hv).bind fun values hv => ?_
    exact ⟨target, hm, hty, map_ty_eq_of_forall₂ hv⟩
  · next arms hop =>
    rw [hop] at hi
    exact (h.entries i inst arms hat hop fun arm harm => (hi.2 arm harm).2).bind fun v hv => hv

/-! ### Steps of a frame -/

theorem Typed.set (h : fr.Typed m) {i : InstId} {v : Value}
    (hv : ∀ inst, fr.function.inst? i = some inst → v.ty = inst.ty) (pos : Nat) :
    ({ fr.set i v with pos := pos } : Frame).Typed m := by
  refine ⟨h.verified, h.args, ?_, h.block⟩
  intro j w inst hw hj
  show w.ty = inst.ty
  change (fr.values.setIfInBounds i (some v))[j]? = some (some w) at hw
  rw [Array.getElem?_setIfInBounds] at hw
  split at hw
  · next hij =>
    subst hij
    split at hw
    · cases hw
      exact hv inst hj
    · cases hw
  · exact h.values j w inst hw hj

theorem Typed.jump (h : fr.Typed m) {target : BlockId} (ht : target < fr.function.blocks.size) :
    (fr.jump target).Typed m :=
  ⟨h.verified, h.args, h.values, ht⟩

/-- What a step of a frame may lead to. -/
def StepTyped (fr : Frame) (m : Ir.Module) : Step → Prop
  | .computed fr' => fr'.Typed m ∧ fr'.function = fr.function
  | .jumped fr' => fr'.Typed m ∧ fr'.function = fr.function
  | .call callee args => ∃ target, m.get? callee = some target ∧ fr.Awaits target.ret ∧
      args.map Value.ty = target.params.map Ir.Param.ty
  | .returned v => v.ty = fr.function.ret

theorem Typed.follow_meets {E : Fault → Prop} (h : fr.Typed m) (hr : fr.Reads E) {k j : Nat}
    (hk : fr.function.layout[k]? = some fr.block) (hj : j ≤ fr.pos) {t : Terminator}
    (ht : fr.function.TerminatorTyped ⟨k, j⟩ t)
    (hs : ∀ s ∈ t.successors, s < fr.function.blocks.size) :
    Meets (fr.StepTyped m) E (fr.follow t) := by
  cases t with
  | ret v => exact (hr.operands k j v _ hk hj ht).bind fun x hx => hx
  | br target => exact ⟨h.jump (hs target (by simp [Terminator.successors])), rfl⟩
  | condBr cond onTrue onFalse =>
    refine (hr.operands k j cond _ hk hj ht).bind fun x hx => ?_
    refine (expectBool_meets hx).bind fun taken _ => ?_
    refine ⟨h.jump (hs _ ?_), rfl⟩
    cases taken <;> simp [Terminator.successors]

/-- A step of a frame keeps its types and never meets a value of a wrong type or a reference that leads
nowhere; it can only fail in a division, or for what the frame reads. -/
theorem Typed.step_meets_of_reads {E : Fault → Prop} (h : fr.Typed m) (hE : E .divisionByZero)
    (hr : fr.Reads E) : Meets (fr.StepTyped m) E fr.step := by
  have hmem := h.verified.complete.mem_layout_iff.2 h.block
  obtain ⟨k, hk⟩ := List.mem_iff_getElem?.1 hmem
  obtain ⟨b, hb, htyped⟩ := h.verified.blocks k fr.block hk
  obtain ⟨b', t, hb', ht, hinsts, hsuccs⟩ := h.verified.complete.blocks fr.block hmem
  obtain rfl : b = b' := Option.some.inj (hb.symm.trans hb')
  cases hi : b.insts[fr.pos]? with
  | none =>
    rw [step_of_end hb hi ht]
    refine h.follow_meets hr hk (List.getElem?_eq_none_iff.1 hi) (htyped.terminator t ht) fun s hs => ?_
    exact Function.block?_isSome_iff.1 (hsuccs s hs)
  | some i =>
    obtain ⟨inst, hinst⟩ := Option.isSome_iff_exists.1 (hinsts i (List.mem_of_getElem? hi))
    have hat : fr.At i inst := ⟨b, hb, hi, hinst⟩
    have haction : Meets (ActionTyped m inst.ty) E (fr.perform inst) :=
      hr.perform_meets hE hk hat (htyped.insts fr.pos i inst hi hinst)
    cases hp : fr.perform inst with
    | error e =>
      rw [hp] at haction
      rw [hat.step_error hp]
      exact haction
    | ok action =>
      rw [hp] at haction
      cases action with
      | value v =>
        rw [hat.step_value hp]
        refine ⟨h.set ?_ _, rfl⟩
        intro inst' hinst'
        obtain rfl : inst = inst' := Option.some.inj (hinst.symm.trans hinst')
        exact haction
      | call callee args =>
        rw [hat.step_call hp]
        obtain ⟨target, hm, hty, hargs⟩ := haction
        exact ⟨target, hm, ⟨b, i, inst, hb, hi, hinst, hty⟩, hargs⟩

/-- **One step of a frame keeps its types**, or ends with a permitted fault. -/
theorem Typed.step_meets (h : fr.Typed m) :
    Meets (fr.StepTyped m) (Fault.Permitted m bound) fr.step :=
  h.step_meets_of_reads .divisionByZero h.reads

/-- A frame that waits for a value of the type it gets goes on. -/
theorem Typed.resume_typed (h : fr.Typed m) {v : Value} (ha : fr.Awaits v.ty) :
    ∃ fr', fr.resume v = .ok fr' ∧ fr'.Typed m ∧ fr'.function = fr.function := by
  obtain ⟨b, i, inst, hb, hi, hinst, hty⟩ := ha
  have hat : fr.At i inst := ⟨b, hb, hi, hinst⟩
  refine ⟨fr.put i v, hat.resume v, h.set ?_ _, rfl⟩
  intro inst' hinst'
  obtain rfl : inst = inst' := Option.some.inj (hinst.symm.trans hinst')
  exact hty.symm

end Frame

/-! ### Calls -/

/-- Every function of a module that has blocks passes verification against it. -/
def AllVerified (m : Ir.Module) : Prop :=
  ∀ f ∈ m.functions, f.isDeclaration = false → f.verify m = .ok ()

/-- A call that fits its callee opens a frame of it, or fails because the callee has no blocks or the
stack is full. -/
theorem enter_meets {m : Ir.Module} (hm : AllVerified m) {bound : Nat} {t : Meter} {f : Function}
    {name : String} {args : List Value} (hf : m.get? name = some f)
    (hargs : args.map Value.ty = f.params.map Ir.Param.ty) :
    Meets (fun r => r.1.Typed m ∧ r.1.function = f) (Fault.Permitted m bound)
      (enter m bound t name args) := by
  obtain ⟨hmem, hname⟩ := Module.get?_eq_some_iff.1 hf
  have hlen : f.params.length = args.length := by
    simpa using congrArg List.length hargs.symm
  unfold enter
  rw [hf]
  show Meets _ _ (if f.isDeclaration then _ else _)
  split
  · next hd =>
    subst hname
    exact .notDefined hf hd
  · next hd =>
    rw [if_neg (not_not.2 hlen), checkArgs_of_map_ty hargs]
    show Meets _ _ (if bound ≤ t.depth then _ else _)
    split
    · exact .stackOverflow
    · have hv := Function.verify_eq_ok_iff.1 (hm f hmem (Bool.eq_false_iff.2 hd))
      obtain ⟨entry, rest, hlayout⟩ := List.exists_cons_of_ne_nil hv.complete.layout_ne_nil
      have hentry : f.entry? = some entry := by rw [Function.entry?, hlayout]; rfl
      have hin : entry ∈ f.layout := by rw [hlayout]; exact List.mem_cons_self
      unfold Frame.start
      rw [hentry]
      refine ⟨⟨hv, hargs, ?_, hv.complete.mem_layout_iff.1 hin⟩, rfl⟩
      intro i v inst hval _
      change (Array.replicate f.insts.size none)[i]? = some (some v) at hval
      rw [Array.getElem?_replicate] at hval
      split at hval <;> cases hval

/-! ### Runs -/

/-- Frames that wait for results: the topmost for one of type `ty`, each of the others for one of the
type that the frame above it returns.  The last of them returns a value of type `ret`. -/
def StackTyped (m : Ir.Module) (ret : Ty) : Ty → List Frame → Prop
  | ty, [] => ty = ret
  | ty, caller :: callers =>
    caller.Typed m ∧ caller.Awaits ty ∧ StackTyped m ret caller.function.ret callers

namespace Thread

/-- A run under way in which everything has its type; it will return a value of type `ret`. -/
def Typed (m : Ir.Module) (ret : Ty) (thread : Thread) : Prop :=
  thread.top.Typed m ∧ StackTyped m ret thread.top.function.ret thread.callers

variable {m : Ir.Module} {bound : Nat} {ret : Ty}

/-- What a step of a run may lead to. -/
def ProgressTyped (m : Ir.Module) (bound : Nat) (ret : Ty) : Progress → Prop
  | .running thread => thread.Typed m ret
  | .ended result _ => Meets (fun v => v.ty = ret) (Fault.Permitted m bound) result

theorem handDown_typed {t : Meter} {v : Value} {callers : List Frame}
    (h : StackTyped m ret v.ty callers) : ProgressTyped m bound ret (handDown t v callers) := by
  cases callers with
  | nil => exact h
  | cons caller callers =>
    obtain ⟨hcaller, hawaits, hrest⟩ := h
    obtain ⟨fr, hfr, htyped, hfun⟩ := hcaller.resume_typed hawaits
    simp only [handDown, hfr]
    refine ⟨htyped, ?_⟩
    show StackTyped m ret fr.function.ret callers
    rw [hfun]
    exact hrest

/-- **One step of a run keeps the types of all frames.** -/
theorem step_typed (hm : AllVerified m) {thread : Thread} (h : thread.Typed m ret) :
    ProgressTyped m bound ret (thread.step m bound) := by
  obtain ⟨t, top, callers⟩ := thread
  obtain ⟨htop, hstack⟩ := h
  have hstep : Meets (top.StepTyped m) (Fault.Permitted m bound) top.step := htop.step_meets
  cases hs : top.step with
  | error e =>
    rw [hs] at hstep
    rw [step_of_error hs]
    exact hstep
  | ok s =>
    rw [hs] at hstep
    cases s with
    | computed fr =>
      rw [step_of_computed hs]
      exact ⟨hstep.1, hstep.2 ▸ hstack⟩
    | jumped fr =>
      rw [step_of_jumped hs]
      exact ⟨hstep.1, hstep.2 ▸ hstack⟩
    | returned v =>
      have hty : v.ty = top.function.ret := hstep
      rw [step_of_returned hs]
      exact handDown_typed (hty ▸ hstack)
    | call callee args =>
      obtain ⟨target, htarget, hawaits, hargs⟩ := hstep
      have henter : Meets (fun r => r.1.Typed m ∧ r.1.function = target)
          (Fault.Permitted m bound) (enter m bound t callee args) := enter_meets hm htarget hargs
      cases he : enter m bound t callee args with
      | error e =>
        rw [he] at henter
        rw [step_of_refused_call hs he]
        exact henter
      | ok r =>
        rw [he] at henter
        obtain ⟨hframe, hfun⟩ := henter
        rw [step_of_call hs he]
        exact ⟨hframe, htop, hfun ▸ hawaits, hstack⟩

/-- **A whole run keeps the types**: whenever it ends, it ends with a value of the type it is to
return or with a permitted fault. -/
theorem run_typed (hm : AllVerified m) {fuel : Nat} {thread : Thread} (h : thread.Typed m ret)
    {result : Except Fault Value} {t : Meter}
    (hrun : thread.run m bound fuel = some (result, t)) :
    Meets (fun v => v.ty = ret) (Fault.Permitted m bound) result := by
  induction fuel generalizing thread with
  | zero => cases hrun
  | succ fuel ih =>
    have hstep : ProgressTyped m bound ret (thread.step m bound) := step_typed hm h
    rw [run] at hrun
    split at hrun
    · next thread' hs =>
      rw [hs] at hstep
      exact ih hstep hrun
    · next result' t' hs =>
      rw [hs] at hstep
      cases hrun
      exact hstep

end Thread

/-- A run from the first frame on, unless it is cut off for want of fuel. -/
theorem execute_meets {m : Ir.Module} (hm : AllVerified m) {f : Function} (hf : f ∈ m.functions)
    {args : List Value} (hargs : args.map Value.ty = f.params.map Ir.Param.ty) (mc : Machine)
    (hfuel : (mc.execute m f.name args).1 ≠ .error .outOfFuel) :
    Meets (fun v => v.ty = f.ret) (Fault.Permitted m mc.maxDepth)
      (mc.execute m f.name args).1 := by
  have henter : Meets (fun r => r.1.Typed m ∧ r.1.function = f) (Fault.Permitted m mc.maxDepth)
      (enter m mc.maxDepth mc.meter f.name args) :=
    enter_meets hm (Module.get?_eq_some_iff.2 ⟨hf, rfl⟩) hargs
  unfold execute at hfuel ⊢
  cases he : enter m mc.maxDepth mc.meter f.name args with
  | error e =>
    rw [he] at henter
    exact henter
  | ok r =>
    obtain ⟨frame, t⟩ := r
    rw [he] at henter hfuel
    simp only at hfuel ⊢
    cases hr : Thread.run m mc.maxDepth mc.fuel ⟨t, frame, []⟩ with
    | none =>
      rw [hr] at hfuel
      exact absurd rfl hfuel
    | some ended =>
      obtain ⟨result, t'⟩ := ended
      have htyped : Thread.Typed m f.ret ⟨t, frame, []⟩ :=
        ⟨henter.1, congrArg Function.ret henter.2⟩
      exact Thread.run_typed hm htyped hr

/-- **Type safety.**  In a module whose functions with blocks are all verified, a run of a function on
arguments of its types gives a value of its result type or ends with a permitted fault, unless it is cut
off for want of fuel. -/
theorem execute_typed {m : Ir.Module} (hm : AllVerified m) {f : Function} (hf : f ∈ m.functions)
    {args : List Value} (hargs : args.map Value.ty = f.params.map Ir.Param.ty) (mc : Machine) :
    (∀ v, (mc.execute m f.name args).1 = .ok v → v.ty = f.ret) ∧
      ∀ e, (mc.execute m f.name args).1 = .error e → e = .outOfFuel ∨
        e.Permitted m mc.maxDepth := by
  constructor
  · intro v hv
    have h := execute_meets hm hf hargs mc (by rw [hv]; intro e; cases e)
    rw [hv] at h
    exact h
  · intro e he
    by_cases hfuel : e = .outOfFuel
    · exact .inl hfuel
    · have h := execute_meets hm hf hargs mc (by rw [he]; exact fun e => hfuel (Except.error.inj e))
      rw [he] at h
      exact .inr h

/-! ### A loop -/

/-- Counts up to its argument and divides by what it has counted; a `phi` carries the count around the
loop. -/
def counting : Function where
  name := "counting"
  params := [⟨"n", .i64⟩]
  ret := .i64
  insts := #[⟨"i", .i64, .phi [(.int 0, 0), (.inst 1, 1)]⟩, ⟨"next", .i64, .binary .add (.inst 0) (.int 1)⟩,
    ⟨"more", .i1, .icmp .slt (.inst 1) (.arg 0)⟩, ⟨"q", .i64, .binary .sdiv (.int 10) (.inst 1)⟩]
  blocks := #[⟨"entry", [], some (.br 1)⟩, ⟨"loop", [0, 1, 2], some (.condBr (.inst 2) 1 2)⟩,
    ⟨"exit", [3], some (.ret (.inst 3))⟩]
  layout := [0, 1, 2]

/-- The module of `counting` and of a function that is only declared. -/
def countingModule : Ir.Module where
  name := "m"
  functions := [counting, { name := "elsewhere", ret := .double }]
  distinct := by decide

theorem allVerified_countingModule : AllVerified countingModule := by
  intro f hf hbody
  rcases List.mem_cons.1 hf with rfl | hf
  · decide
  · rw [List.mem_singleton] at hf
    subst hf
    cases hbody

theorem counting_typed :
    (({ fuel := 40 } : Machine).execute countingModule "counting" [.int 3]).1 = .ok (.int 3) ∧
      (∀ v, (({ fuel := 40 } : Machine).execute countingModule "counting" [.int 3]).1 = .ok v →
        v.ty = .i64) ∧
      ∀ e, (({ fuel := 40 } : Machine).execute countingModule "counting" [.int 3]).1 = .error e →
        e = .outOfFuel ∨ e.Permitted countingModule 1024 :=
  ⟨by decide, execute_typed allVerified_countingModule List.mem_cons_self rfl { fuel := 40 }⟩

end Machine

end ScalarLang
