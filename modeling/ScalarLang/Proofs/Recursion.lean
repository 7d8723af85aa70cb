import ScalarLang.Proofs.Faults

/-!
# The stack of frames is recursion

A machine keeps the calls under way on a stack of its own: a caller stays at its call until the callee
returns, and then goes on behind it.  Here the same language is run without a stack, by functions that
call themselves, and the two are shown to end alike.

* `Machine.Plain.call`, `Machine.Plain.block`, `Machine.Plain.rest` — a call, a block, and the rest of a
  block, each run to the end of the function.  They know no position: what is left of a block is a list.
* `Machine.Plain.goOn_eq_behind` — what is left to do for a frame, by what its next step does.
* `Machine.Plain.finish_eq` — a step of the machine leaves what is left to do for the whole stack as it was.
* `Machine.Delivers` — a frame comes to its end, whatever waits below it on the stack.
* `Machine.Plain.sound` — whatever ends in the recursion comes to its end on the stack.
* `Machine.execute_eq_recursion` — a machine ends with a result exactly when the recursion does.
-/

namespace ScalarLang

namespace Machine

open Ir

/-! ### Plain recursion -/

/-- What a run adds to: the greatest number of calls under way at a time, and the steps. -/
structure Counters where
  deepest : Nat
  steps : Nat
deriving DecidableEq, Repr, Inhabited

def Counters.tick (c : Counters) : Counters := { c with steps := c.steps + 1 }

/-- The result of a call, and the counters behind it. -/
abbrev Outcome := Except Fault Value × Counters

/-- A module, as it is run without a stack. -/
abbrev Plain := Ir.Module

namespace Plain

/-- The checks of a call with `depth` calls under way, in their order, and the activation they end in. -/
def checkCall (m : Ir.Module) (bound depth : Nat) (name : String) (args : List Value) :
    Except Fault Frame := do
  let some f := m.get? name | throw (.functionNotFound name)
  if f.isDeclaration then throw (.notDefined name)
  if f.params.length ≠ args.length then
    throw (.arityMismatch name f.params.length args.length)
  checkArgs name f.params args
  if bound ≤ depth then throw (.stackOverflow bound)
  Frame.start f args

mutual

/-- Runs a function, with `depth` calls under way; `none` if it does not end. -/
def call (m : Plain) (bound depth : Nat) (name : String) (args : List Value) (c : Counters) :
    Option Outcome :=
  match checkCall m bound depth name args with
  | .error e => some (.error e, c)
  | .ok fr => m |>.block bound (depth + 1) fr { c with deepest := max c.deepest (depth + 1) }
partial_fixpoint

/-- Runs a function from the start of the block that an activation is in. -/
def block (m : Plain) (bound depth : Nat) (fr : Frame) (c : Counters) : Option Outcome :=
  match fr.function.block? fr.block with
  | none => some (.error (.missingBlock fr.block fr.function.name), c)
  | some b => m |>.rest bound depth fr b b.insts c
partial_fixpoint

/-- Runs the instructions that are left of a block, and then follows its end. -/
def rest (m : Plain) (bound depth : Nat) (fr : Frame) (b : Block) (ids : List InstId)
    (c : Counters) : Option Outcome :=
  match ids with
  | id :: ids =>
    match fr.function.inst? id with
    | none => some (.error (.missingInst id fr.function.name), c)
    | some inst =>
      match fr.perform inst with
      | .error e => some (.error e, c)
      | .ok (.value v) => m |>.rest bound depth (fr.set id v) b ids c.tick
      | .ok (.call callee args) => do
        match ← m |>.call bound depth callee args c with
        | (.error e, c) => some (.error e, c)
        | (.ok v, c) => m |>.rest bound depth (fr.set id v) b ids c.tick
  | [] =>
    match b.terminator? with
    | none => some (.error (.noTerminator b.label fr.function.name), c)
    | some (.ret v) => some (fr.get v, c)
    | some (.br target) => m |>.block bound depth (fr.jump target) c
    | some (.condBr cond onTrue onFalse) =>
      match fr.get cond >>= expectBool with
      | .error e => some (.error e, c)
      | .ok taken => m |>.block bound depth (fr.jump (if taken then onTrue else onFalse)) c
partial_fixpoint

end

end Plain

/-! ### Frames without a position -/

/-- What a machine has counted. -/
def Meter.counters (t : Meter) : Counters := ⟨t.deepest, t.steps⟩

/-- The meter with one more call under way. -/
def Meter.deeper (t : Meter) (name : String) : Meter :=
  { t with current? := some name, depth := t.depth + 1, deepest := max t.deepest (t.depth + 1) }

namespace Frame

variable {fr : Frame}

/-- The frame at another position of its block. -/
def placed (fr : Frame) (pos : Nat) : Frame := { fr with pos }

theorem get_placed (pos : Nat) (v : Operand) : (fr.placed pos).get v = fr.get v := by
  cases v <;> rfl

/-- No instruction looks at the position that it stands at. -/
theorem perform_placed (pos : Nat) (i : Inst) : (fr.placed pos).perform i = fr.perform i := by
  have hget : (fr.placed pos).get = fr.get := funext (get_placed pos)
  unfold perform incoming
  rw [hget]
  rfl

theorem pos_of_start {f : Function} {args : List Value} (h : start f args = .ok fr) : fr.pos = 0 := by
  unfold start at h
  split at h
  · rw [← Except.ok.inj h]
  · cases h

end Frame

/-- The checks of the machine are those of the recursion. -/
theorem enter_eq_checkCall (m : Ir.Module) (bound : Nat) (t : Meter) (name : String) (args : List Value) :
    enter m bound t name args =
      (Plain.checkCall m bound t.depth name args).map fun fr => (fr, t.deeper name) := by
  unfold enter Plain.checkCall
  cases m.get? name with
  | none => rfl
  | some f =>
    simp only
    split
    · rfl
    · split
      · rfl
      · cases checkArgs name f.params args with
        | error e => rfl
        | ok u =>
          by_cases hdepth : bound ≤ t.depth
          · simp only [hdepth, if_true]
            rfl
          · simp only [hdepth, if_false]
            cases Frame.start f args <;> rfl

theorem checkCall_of_enter {m : Ir.Module} {bound : Nat} {t t' : Meter} {name : String}
    {args : List Value} {fr : Frame} (h : enter m bound t name args = .ok (fr, t')) :
    Plain.checkCall m bound t.depth name args = .ok fr ∧ t' = t.deeper name := by
  rw [enter_eq_checkCall] at h
  cases ha : Plain.checkCall m bound t.depth name args with
  | error e =>
    rw [ha] at h
    cases h
  | ok fr' =>
    rw [ha] at h
    cases h
    exact ⟨rfl, rfl⟩

/-! ### From the stack to the recursion -/

namespace Plain

variable {m : Ir.Module} {bound depth : Nat} {fr : Frame} {c : Counters}

/-- Goes on with a result, unless it is a failure. -/
def proceed (next : Value → Counters → Option Outcome) : Outcome → Option Outcome
  | (.error e, c) => some (.error e, c)
  | (.ok v, c) => next v c

/-- What is left to do for a frame: the rest of its block, and what comes behind it. -/
def goOn (m : Ir.Module) (bound depth : Nat) (fr : Frame) (c : Counters) : Option Outcome :=
  match fr.function.block? fr.block with
  | none => some (.error (.missingBlock fr.block fr.function.name), c)
  | some b => rest m bound depth (fr.placed 0) b (b.insts.drop fr.pos) c

/-- Goes on behind the call at hand. -/
def goOnWith (m : Ir.Module) (bound depth : Nat) (fr : Frame) (v : Value) (c : Counters) :
    Option Outcome :=
  match fr.resume v with
  | .error e => some (.error e, c)
  | .ok fr => goOn m bound depth fr c.tick

/-- What is left to do behind a step of a frame. -/
def behind (m : Ir.Module) (bound depth : Nat) (fr : Frame) (c : Counters) :
    Except Fault Frame.Step → Option Outcome
  | .error e => some (.error e, c)
  | .ok (.computed fr) => goOn m bound depth fr c.tick
  | .ok (.jumped fr) => goOn m bound depth fr c
  | .ok (.returned v) => some (.ok v, c)
  | .ok (.call callee args) =>
    call m bound depth callee args c >>= proceed (goOnWith m bound depth fr)

theorem goOn_of_block? {b : Block} (h : fr.function.block? fr.block = some b) :
    goOn m bound depth fr c = rest m bound depth (fr.placed 0) b (b.insts.drop fr.pos) c := by
  rw [goOn, h]

theorem block_eq_goOn (h : fr.pos = 0) : block m bound depth fr c = goOn m bound depth fr c := by
  have hfr : fr.placed 0 = fr := by rw [Frame.placed, ← h]
  rw [block, goOn, hfr, h]
  rfl

theorem pos_of_checkCall {name : String} {args : List Value}
    (h : checkCall m bound depth name args = .ok fr) : fr.pos = 0 := by
  have henter := enter_eq_checkCall m bound { depth } name args
  rw [h] at henter
  obtain ⟨f, -, hstart⟩ := start_of_enter henter
  exact Frame.pos_of_start hstart

/-- A call that is let in runs its callee from the entry. -/
theorem call_of_ok {name : String} {args : List Value}
    (h : checkCall m bound depth name args = .ok fr) :
    call m bound depth name args c =
      goOn m bound (depth + 1) fr { c with deepest := max c.deepest (depth + 1) } := by
  rw [call, h]
  exact block_eq_goOn (pos_of_checkCall h)

theorem rest_cons {b : Block} {id : InstId} {ids : List InstId} {inst : Inst}
    (hinst : fr.function.inst? id = some inst) :
    rest m bound depth fr b (id :: ids) c =
      match fr.perform inst with
      | .error e => some (.error e, c)
      | .ok (.value v) => rest m bound depth (fr.set id v) b ids c.tick
      | .ok (.call callee args) =>
        call m bound depth callee args c >>=
          proceed fun v c => rest m bound depth (fr.set id v) b ids c.tick := by
  rw [rest]
  simp only [hinst]
  cases fr.perform inst with
  | error e => rfl
  | ok action =>
    cases action with
    | value v => rfl
    | call callee args =>
      refine congrArg (call m bound depth callee args c >>= ·) (funext fun out => ?_)
      obtain ⟨r, c'⟩ := out
      cases r <;> rfl

theorem rest_nil {b : Block} {t : Terminator} (ht : b.terminator? = some t) :
    rest m bound depth (fr.placed 0) b [] c = behind m bound depth fr c (fr.follow t) := by
  rw [rest, ht]
  cases t with
  | ret v =>
    show some ((fr.placed 0).get v, c) = _
    rw [Frame.get_placed, Frame.follow]
    cases fr.get v <;> rfl
  | br target => exact block_eq_goOn rfl
  | condBr cond onTrue onFalse =>
    simp only [Frame.get_placed, Frame.follow]
    cases fr.get cond with
    | error e => rfl
    | ok v =>
      show (match expectBool v with | .error e => _ | .ok taken => _) =
        behind m bound depth fr c (expectBool v >>= _)
      cases expectBool v with
      | error e => rfl
      | ok taken => exact block_eq_goOn rfl

/-- What is left to do for a frame, by what its next step does. -/
theorem goOn_eq_behind (m : Ir.Module) (bound depth : Nat) (fr : Frame) (c : Counters) :
    goOn m bound depth fr c = behind m bound depth fr c fr.step := by
  cases hb : fr.function.block? fr.block with
  | none => rw [goOn, Frame.step, hb]; rfl
  | some b =>
    rw [goOn_of_block? hb]
    cases hi : b.insts[fr.pos]? with
    | none =>
      rw [List.drop_eq_nil_of_le (List.getElem?_eq_none_iff.1 hi)]
      cases ht : b.terminator? with
      | none =>
        rw [rest, Frame.step, hb]
        simp only [hi, ht]
        rfl
      | some t => rw [rest_nil ht, Frame.step_of_end hb hi ht]
    | some id =>
      obtain ⟨hlt, hid⟩ := List.getElem?_eq_some_iff.1 hi
      rw [List.drop_eq_getElem_cons hlt, hid]
      cases hinst : fr.function.inst? id with
      | none =>
        have hinst' : (fr.placed 0).function.inst? id = none := hinst
        rw [rest, hinst', Frame.step, hb]
        simp only [hi, hinst]
        rfl
      | some inst =>
        have hinst' : (fr.placed 0).function.inst? id = some inst := hinst
        have hat : fr.At id inst := ⟨b, hb, hi, hinst⟩
        have hput : ∀ v c, rest m bound depth ((fr.placed 0).set id v) b (b.insts.drop (fr.pos + 1)) c =
            goOn m bound depth (fr.put id v) c := by
          intro v c
          have hb' : (fr.put id v).function.block? (fr.put id v).block = some b := hb
          exact (goOn_of_block? hb').symm
        rw [rest_cons hinst', Frame.perform_placed]
        cases hp : fr.perform inst with
        | error e =>
          rw [hat.step_error hp]
          rfl
        | ok action =>
          cases action with
          | value v =>
            rw [hat.step_value hp]
            exact hput v c.tick
          | call callee args =>
            rw [hat.step_call hp]
            refine congrArg (fun next => call m bound depth callee args c >>= proceed next) ?_
            funext v c'
            rw [hput, goOnWith, hat.resume]

/-! The frames below the topmost one are calls that are not over: each of them goes on with the result
of the frame above it. -/

/-- What is left to do for the frames that wait, with the outcome of the frame above them. -/
def unwind (m : Ir.Module) (bound : Nat) : Nat → List Frame → Outcome → Option Outcome
  | _, [], out => some out
  | depth, caller :: callers, out =>
    proceed (fun v c => goOnWith m bound (depth - 1) caller v c >>= unwind m bound (depth - 1) callers)
      out

/-- What is left to do for the whole stack. -/
def finish (m : Ir.Module) (bound : Nat) (a : Thread) : Option Outcome :=
  goOn m bound a.meter.depth a.top a.meter.counters >>= unwind m bound a.meter.depth a.callers

theorem unwind_error (callers : List Frame) (e : Fault) :
    unwind m bound depth callers (.error e, c) = some (.error e, c) := by
  cases callers <;> rfl

/-- A step leaves what is left to do as it was. -/
theorem finish_eq (m : Ir.Module) (bound : Nat) (a : Thread) :
    finish m bound a =
      match a.step m bound with
      | .running b => finish m bound b
      | .ended r t => some (r, t.counters) := by
  obtain ⟨t, top, callers⟩ := a
  rw [finish, goOn_eq_behind]
  cases hs : top.step with
  | error e =>
    rw [Thread.step_of_error hs]
    exact unwind_error callers e
  | ok s =>
    cases s with
    | computed fr =>
      rw [Thread.step_of_computed hs]
      rfl
    | jumped fr =>
      rw [Thread.step_of_jumped hs]
      rfl
    | returned v =>
      rw [Thread.step_of_returned hs]
      cases callers with
      | nil => rfl
      | cons caller callers =>
        show (goOnWith m bound (t.depth - 1) caller v t.counters >>= _) = _
        rw [goOnWith, Thread.handDown]
        cases caller.resume v with
        | error e => exact unwind_error callers e
        | ok fr => rfl
    | call callee args =>
      have henter := enter_eq_checkCall m bound t callee args
      show (call m bound t.depth callee args t.counters >>= _) >>= _ = _
      cases ha : checkCall m bound t.depth callee args with
      | error e =>
        rw [ha] at henter
        rw [Thread.step_of_refused_call hs henter, call, ha]
        exact unwind_error callers e
      | ok fr =>
        rw [ha] at henter
        rw [Thread.step_of_call hs henter, call_of_ok ha, bind_assoc]
        refine congrArg (goOn m bound (t.depth + 1) fr (t.deeper callee).counters >>= ·) ?_
        funext out
        obtain ⟨r, c⟩ := out
        cases r with
        | error e => exact unwind_error callers e
        | ok v => rfl

/-- A run that ends has done what was left to do. -/
theorem finish_of_run {fuel : Nat} {a : Thread} {r : Except Fault Value} {t : Meter}
    (h : a.run m bound fuel = some (r, t)) : finish m bound a = some (r, t.counters) := by
  induction fuel generalizing a with
  | zero => cases h
  | succ fuel ih =>
    rw [finish_eq]
    rw [Thread.run] at h
    cases hs : a.step m bound with
    | running b =>
      rw [hs] at h
      exact ih h
    | ended r' t' =>
      rw [hs] at h
      cases h
      rfl

end Plain

/-! ### From the recursion to the stack -/

/-- A frame comes to its end on top of `callers`: it returns a value, or fails, or a call of it fails. -/
def Delivers (m : Ir.Module) (bound : Nat) (t : Meter) (fr : Frame) (callers : List Frame) :
    Outcome → Prop
  | (.ok v, c) => ∃ t' fr', Thread.Reaches m bound ⟨t, fr, callers⟩ ⟨t', fr', callers⟩ ∧
      fr'.step = .ok (.returned v) ∧ t'.depth = t.depth ∧ t'.counters = c
  | (.error e, c) => ∃ b t', Thread.Reaches m bound ⟨t, fr, callers⟩ b ∧
      b.step m bound = .ended (.error e) t' ∧ t'.counters = c

/-- A call comes to its end, whatever waits for it. -/
def CallDelivers (m : Ir.Module) (bound : Nat) (t : Meter) (name : String) (args : List Value)
    (out : Outcome) : Prop :=
  match enter m bound t name args with
  | .error e => out = (.error e, t.counters)
  | .ok (fr, t') => ∀ callers, Delivers m bound t' fr callers out

namespace Delivers

variable {m : Ir.Module} {bound : Nat} {t t' : Meter} {fr fr' : Frame} {callers : List Frame}
  {out : Outcome}

theorem of_reaches (h : Thread.Reaches m bound ⟨t, fr, callers⟩ ⟨t', fr', callers⟩)
    (hdepth : t'.depth = t.depth) (hd : Delivers m bound t' fr' callers out) :
    Delivers m bound t fr callers out := by
  obtain ⟨r, c⟩ := out
  cases r with
  | ok v =>
    obtain ⟨t'', fr'', hr, hs, hdepth', hc⟩ := hd
    exact ⟨t'', fr'', h.trans hr, hs, hdepth'.trans hdepth, hc⟩
  | error e =>
    obtain ⟨b, t'', hr, hs, hc⟩ := hd
    exact ⟨b, t'', h.trans hr, hs, hc⟩

theorem of_error {e : Fault} (h : fr.step = .error e) :
    Delivers m bound t fr callers (.error e, t.counters) :=
  ⟨_, t, .refl _, Thread.step_of_error h, rfl⟩

theorem of_returned {v : Value} (h : fr.step = .ok (.returned v)) :
    Delivers m bound t fr callers (.ok v, t.counters) :=
  ⟨t, fr, .refl _, h, rfl, rfl⟩

theorem of_jumped (h : fr.step = .ok (.jumped fr')) (hd : Delivers m bound t fr' callers out) :
    Delivers m bound t fr callers out :=
  of_reaches (.of_step (Thread.step_of_jumped h)) rfl hd

theorem of_computed (h : fr.step = .ok (.computed fr'))
    (hd : Delivers m bound t.tick fr' callers out) : Delivers m bound t fr callers out :=
  of_reaches (.of_step (Thread.step_of_computed h)) rfl hd

/-- A frame that calls comes to its end when the call does, and then what is left of the frame. -/
theorem of_call {i : InstId} {inst : Inst} {callee : String} {args : List Value} {out' : Outcome}
    (hat : fr.At i inst) (hp : fr.perform inst = .ok (.call callee args))
    (hcall : CallDelivers m bound t callee args out')
    (hfail : ∀ e c, out' = (.error e, c) → out = (.error e, c))
    (hgo : ∀ v c, out' = (.ok v, c) → ∀ t', t'.depth = t.depth → t'.counters = c.tick →
      Delivers m bound t' (fr.put i v) callers out) :
    Delivers m bound t fr callers out := by
  have hs := hat.step_call hp
  unfold CallDelivers at hcall
  cases henter : enter m bound t callee args with
  | error e =>
    rw [henter] at hcall
    rw [hfail e _ hcall]
    exact ⟨_, t, .refl _, Thread.step_of_refused_call hs henter, rfl⟩
  | ok entered =>
    obtain ⟨fr', t'⟩ := entered
    rw [henter] at hcall
    have hstep : Thread.Reaches m bound ⟨t, fr, callers⟩ ⟨t', fr', fr :: callers⟩ :=
      .of_step (Thread.step_of_call hs henter)
    have hd := hcall (fr :: callers)
    obtain ⟨r, c⟩ := out'
    cases r with
    | error e =>
      obtain ⟨b, t'', hr, hend, hc⟩ := hd
      rw [hfail e c rfl]
      exact ⟨b, t'', hstep.trans hr, hend, hc⟩
    | ok v =>
      obtain ⟨t'', fr'', hr, hret, hdepth, hc⟩ := hd
      -- the callee hands its value down, and the frame goes on behind the call
      have hdown : Thread.step m bound ⟨t'', fr'', fr :: callers⟩ = .running
          ⟨{ t''.tick with depth := t''.depth - 1, current? := some fr.function.name },
            fr.put i v, callers⟩ := by
        rw [Thread.step_of_returned hret, Thread.handDown, hat.resume]
        rfl
      have hdepth' : t''.depth - 1 = t.depth := by
        rw [hdepth, (checkCall_of_enter henter).2]
        rfl
      refine of_reaches ((hstep.trans hr).trans (.of_step hdown)) hdepth' ?_
      refine hgo v c rfl _ hdepth' ?_
      rw [← hc]
      rfl

end Delivers

namespace Plain

/-! The three functions are the least that meet their equations, so what follows from the equations for
any three functions holds of them.  Each comes to its end on the stack with the outcome it has. -/

section Sound

variable (m : Ir.Module) (bound : Nat)

def CallSound (call : Nat → String → List Value → Counters → Option Outcome) : Prop :=
  ∀ depth name args c out, call depth name args c = some out → ∀ t : Meter,
    t.depth = depth → t.counters = c → CallDelivers m bound t name args out

def BlockSound (block : Nat → Frame → Counters → Option Outcome) : Prop :=
  ∀ depth fr c out, block depth fr c = some out → fr.pos = 0 → ∀ (t : Meter) callers,
    t.depth = depth → t.counters = c → Delivers m bound t fr callers out

def RestSound (rest : Nat → Frame → Block → List InstId → Counters → Option Outcome) : Prop :=
  ∀ depth fr b ids c out, rest depth fr b ids c = some out →
    ∀ pos, fr.function.block? fr.block = some b → b.insts.drop pos = ids →
      ∀ (t : Meter) callers, t.depth = depth → t.counters = c →
        Delivers m bound t (fr.placed pos) callers out

end Sound

section Approximations

variable {m : Ir.Module} {bound : Nat} {call : Nat → String → List Value → Counters → Option Outcome}
  {block : Nat → Frame → Counters → Option Outcome}
  {rest : Nat → Frame → Block → List InstId → Counters → Option Outcome}
  {t : Meter} {fr : Frame} {callers : List Frame} {b : Block} {pos : Nat} {out : Outcome}

/-- Behind the last instruction. -/
theorem BlockSound.delivers_end (hblock : BlockSound m bound block)
    (hb : fr.function.block? fr.block = some b) (hids : b.insts.drop pos = [])
    (h : (match b.terminator? with
      | none => some (.error (.noTerminator b.label fr.function.name), t.counters)
      | some (.ret v) => some (fr.get v, t.counters)
      | some (.br target) => block t.depth (fr.jump target) t.counters
      | some (.condBr cond onTrue onFalse) =>
        match fr.get cond >>= expectBool with
        | .error e => some (.error e, t.counters)
        | .ok taken => block t.depth (fr.jump (if taken then onTrue else onFalse)) t.counters) =
      some out) :
    Delivers m bound t (fr.placed pos) callers out := by
  have hb' : (fr.placed pos).function.block? (fr.placed pos).block = some b := hb
  have hend : b.insts[(fr.placed pos).pos]? = none :=
    List.getElem?_eq_none_iff.2 (List.drop_eq_nil_iff.1 hids)
  cases ht : b.terminator? with
  | none =>
    rw [ht] at h
    rw [← Option.some.inj h]
    apply Delivers.of_error
    rw [Frame.step, hb']
    simp only [hend, ht]
    rfl
  | some term =>
    have hstep := Frame.step_of_end hb' hend ht
    rw [ht] at h
    cases term with
    | ret v =>
      rw [Frame.follow, Frame.get_placed] at hstep
      rw [← Option.some.inj h]
      cases hv : fr.get v with
      | error e =>
        rw [hv] at hstep
        exact .of_error hstep
      | ok x =>
        rw [hv] at hstep
        exact .of_returned hstep
    | br target => exact .of_jumped hstep (hblock _ _ _ _ h rfl t callers rfl rfl)
    | condBr cond onTrue onFalse =>
      simp only at h
      have hfollow : (fr.placed pos).follow (.condBr cond onTrue onFalse) =
          (fr.get cond >>= expectBool) >>= fun taken =>
            .ok (.jumped (fr.jump (if taken then onTrue else onFalse))) := by
        rw [Frame.follow, Frame.get_placed, bind_assoc]
        rfl
      rw [hfollow] at hstep
      cases hcond : fr.get cond >>= expectBool with
      | error e =>
        rw [hcond] at h hstep
        rw [← Option.some.inj h]
        exact .of_error hstep
      | ok taken =>
        rw [hcond] at h hstep
        exact .of_jumped hstep (hblock _ _ _ _ h rfl t callers rfl rfl)

/-- At an instruction. -/
theorem RestSound.delivers_inst (hrest : RestSound m bound rest) (hcall : CallSound m bound call)
    {id : InstId} {ids : List InstId} (hb : fr.function.block? fr.block = some b)
    (hids : b.insts.drop pos = id :: ids)
    (h : (match fr.function.inst? id with
      | none => some (.error (.missingInst id fr.function.name), t.counters)
      | some inst =>
        match fr.perform inst with
        | .error e => some (.error e, t.counters)
        | .ok (.value v) => rest t.depth (fr.set id v) b ids t.counters.tick
        | .ok (.call callee args) => do
          match ← call t.depth callee args t.counters with
          | (.error e, c) => some (.error e, c)
          | (.ok v, c) => rest t.depth (fr.set id v) b ids c.tick) = some out) :
    Delivers m bound t (fr.placed pos) callers out := by
  have hb' : (fr.placed pos).function.block? (fr.placed pos).block = some b := hb
  have hi : b.insts[(fr.placed pos).pos]? = some id := by
    show b.insts[pos]? = some id
    rw [← List.head?_drop, hids]
    rfl
  have hnext : b.insts.drop (pos + 1) = ids := by
    rw [← List.tail_drop, hids]
    rfl
  cases hinst : fr.function.inst? id with
  | none =>
    rw [hinst] at h
    rw [← Option.some.inj h]
    apply Delivers.of_error
    have hinst' : (fr.placed pos).function.inst? id = none := hinst
    rw [Frame.step, hb']
    simp only [hi, hinst']
    rfl
  | some inst =>
    have hat : (fr.placed pos).At id inst := ⟨b, hb', hi, hinst⟩
    have hp : (fr.placed pos).perform inst = fr.perform inst := Frame.perform_placed pos inst
    simp only [hinst] at h
    cases hperform : fr.perform inst with
    | error e =>
      rw [hperform] at h hp
      rw [← Option.some.inj h]
      exact .of_error (hat.step_error hp)
    | ok action =>
      rw [hperform] at h hp
      cases action with
      | value v =>
        refine .of_computed (hat.step_value hp) ?_
        exact hrest _ _ _ _ _ _ h (pos + 1) hb hnext t.tick callers rfl rfl
      | call callee args =>
        obtain ⟨out', hout', h⟩ := Option.bind_eq_some_iff.1 h
        refine .of_call hat hp (hcall _ _ _ _ _ hout' t rfl rfl) ?_ ?_
        · intro e c he
          rw [he] at h
          exact (Option.some.inj h).symm
        · intro v c hv t' hdepth hc
          rw [hv] at h
          exact hrest _ _ _ _ _ _ h (pos + 1) hb hnext t' callers hdepth hc

end Approximations

/-- Whatever ends in the recursion comes to its end on the stack. -/
theorem sound (m : Ir.Module) (bound : Nat) :
    CallSound m bound (call m bound) ∧ BlockSound m bound (block m bound) ∧
      RestSound m bound (rest m bound) := by
  apply call.mutual_partial_correctness
  · intro block hblock depth name args c out h t hdepth hc
    subst hdepth hc
    rw [CallDelivers, enter_eq_checkCall]
    cases ha : checkCall m bound t.depth name args with
    | error e =>
      rw [ha] at h
      exact (Option.some.inj h).symm
    | ok fr =>
      rw [ha] at h
      intro callers
      exact hblock _ _ _ _ h (pos_of_checkCall ha) (t.deeper name) callers rfl rfl
  · intro rest hrest depth fr c out h hpos t callers hdepth hc
    subst hdepth hc
    cases hb : fr.function.block? fr.block with
    | none =>
      rw [hb] at h
      rw [← Option.some.inj h]
      apply Delivers.of_error
      rw [Frame.step, hb]
    | some b =>
      rw [hb] at h
      have hd := hrest _ _ _ _ _ _ h 0 hb rfl t callers rfl rfl
      rwa [Frame.placed, ← hpos] at hd
  · intro call block rest hcall hblock hrest depth fr b ids c out h pos hb hids t callers hdepth hc
    subst hdepth hc
    cases ids with
    | nil => exact BlockSound.delivers_end hblock hb hids h
    | cons id ids => exact RestSound.delivers_inst hrest hcall hb hids h

end Plain

/-! ### Functions -/

/-- A frame with nothing below it that comes to its end ends the run. -/
theorem Delivers.exists_run {m : Ir.Module} {bound : Nat} {t : Meter} {fr : Frame}
    {r : Except Fault Value} {c : Counters} (h : Delivers m bound t fr [] (r, c)) :
    Unspent r ∧ ∃ fuel t', Thread.run m bound fuel ⟨t, fr, []⟩ = some (r, t') ∧ t'.counters = c := by
  have hend : ∃ b t', Thread.Reaches m bound ⟨t, fr, []⟩ b ∧ b.step m bound = .ended r t' ∧
      t'.counters = c := by
    cases r with
    | ok v =>
      obtain ⟨t', fr', hr, hs, -, hc⟩ := h
      exact ⟨_, _, hr, Thread.step_of_returned hs, hc⟩
    | error e => exact h
  obtain ⟨b, t', ⟨k, hk⟩, hs, hc⟩ := hend
  refine ⟨Thread.unspent_of_ended hs, 1 + k, t', ?_, hc⟩
  rw [hk, Thread.run, hs]

theorem execute_of_refused {mc : Machine} {m : Ir.Module} {name : String} {args : List Value}
    {e : Fault} (h : enter m mc.maxDepth mc.meter name args = .error e) :
    mc.execute m name args = (.error e, mc) := by
  rw [execute, h]

theorem execute_of_run {mc : Machine} {m : Ir.Module} {name : String} {args : List Value} {fr : Frame}
    {t t' : Meter} {r : Except Fault Value} (h : enter m mc.maxDepth mc.meter name args = .ok (fr, t))
    (hrun : Thread.run m mc.maxDepth mc.fuel ⟨t, fr, []⟩ = some (r, t')) :
    mc.execute m name args = (r, mc.settle t') := by
  rw [execute, h]
  simp only [hrun]

/-- A run that ends as the recursion does. -/
theorem exists_execute_of_call {mc : Machine} {m : Ir.Module} {name : String} {args : List Value}
    {r : Except Fault Value} {c : Counters}
    (h : Plain.call m mc.maxDepth mc.meter.depth name args mc.meter.counters = some (r, c)) :
    Unspent r ∧ ∃ fuel, { mc with fuel }.execute m name args =
      (r, { mc with fuel, meter := { mc.meter with deepest := c.deepest, steps := c.steps } }) := by
  have hd := (Plain.sound m mc.maxDepth).1 _ _ _ _ _ h mc.meter rfl rfl
  have hunspent := unspent_enter m mc.maxDepth mc.meter name args
  unfold CallDelivers at hd
  cases henter : enter m mc.maxDepth mc.meter name args with
  | error e =>
    rw [henter] at hd hunspent
    cases hd
    exact ⟨hunspent.error, mc.fuel, execute_of_refused henter⟩
  | ok entered =>
    obtain ⟨fr, t⟩ := entered
    rw [henter] at hd
    obtain ⟨hr, fuel, t', hrun, hc⟩ := (hd []).exists_run
    subst hc
    have henter' : enter m { mc with fuel }.maxDepth { mc with fuel }.meter name args = .ok (fr, t) :=
      henter
    exact ⟨hr, fuel, execute_of_run henter' hrun⟩

/-- The recursion ends as a run does. -/
theorem call_of_execute {mc mc' : Machine} {m : Ir.Module} {name : String} {args : List Value}
    {r : Except Fault Value} (hr : Unspent r) (h : mc.execute m name args = (r, mc')) :
    Plain.call m mc.maxDepth mc.meter.depth name args mc.meter.counters =
      some (r, mc'.meter.counters) := by
  rw [execute] at h
  cases henter : enter m mc.maxDepth mc.meter name args with
  | error e =>
    rw [henter] at h
    cases h
    rw [enter_eq_checkCall] at henter
    cases ha : Plain.checkCall m mc.maxDepth mc.meter.depth name args with
    | error e' =>
      rw [ha] at henter
      cases henter
      rw [Plain.call, ha]
    | ok fr =>
      rw [ha] at henter
      cases henter
  | ok entered =>
    obtain ⟨fr, t⟩ := entered
    obtain ⟨ha, ht⟩ := checkCall_of_enter henter
    rw [henter] at h
    simp only at h
    split at h
    · next r' t' hrun =>
      cases h
      have hfinish := Plain.finish_of_run hrun
      rw [ht] at hfinish
      rw [Plain.call_of_ok ha]
      rw [Plain.finish] at hfinish
      exact (bind_pure _).symm.trans hfinish
    · cases h
      exact absurd rfl hr

/-- **The stack is recursion.**  A function ends in the recursion, with a result and counters, exactly
when a machine that is given enough fuel ends with that result, and leaves those counters and everything
else as it was. -/
theorem execute_eq_recursion (mc : Machine) (m : Ir.Module) (name : String) (args : List Value)
    (r : Except Fault Value) (c : Counters) :
    Plain.call m mc.maxDepth mc.meter.depth name args mc.meter.counters = some (r, c) ↔
      r ≠ .error .outOfFuel ∧ ∃ fuel, { mc with fuel }.execute m name args =
        (r, { mc with fuel, meter := { mc.meter with deepest := c.deepest, steps := c.steps } }) := by
  constructor
  · exact exists_execute_of_call
  · rintro ⟨hr, fuel, h⟩
    exact call_of_execute hr h

end Machine

end ScalarLang
