import ScalarLang.Machine
import ScalarLang.Proofs.Results

/-!
# Steps and runs

What a step of a run does, by what a step of its topmost frame does, and how steps add up to runs.

* `Machine.Frame.At` — the instruction at hand, and what a step does with it.
* `Machine.Frame.step_cases`, `Machine.Frame.follow_cases` — everything that a step of a frame can do.
* `Machine.Thread.step_of_computed` and the lemmas beside it — one for each step of a frame.
* `Machine.Thread.running_cases`, `Machine.Thread.ended_cases` — everything that a step of a run can do.
* `Machine.Thread.Reaches` — a run gets from here to there, whatever fuel it has left.
* `Machine.Thread.Ends` — a run gets from here to its end.
* `Machine.Thread.Visited` — the points that a run gets to, one of which is where it fails.
-/

namespace ScalarLang

namespace Machine

open Ir

/-! ### Frames -/

namespace Frame

variable {fr : Frame} {i : InstId} {inst : Inst}

/-- The instruction at hand, and its number. -/
def At (fr : Frame) (i : InstId) (inst : Inst) : Prop :=
  ∃ b, fr.function.block? fr.block = some b ∧ b.insts[fr.pos]? = some i ∧
    fr.function.inst? i = some inst

/-- The frame with the value of the instruction at hand, behind that instruction. -/
def put (fr : Frame) (i : InstId) (v : Value) : Frame := { fr.set i v with pos := fr.pos + 1 }

theorem At.step_error (h : fr.At i inst) {e : Fault} (hp : fr.perform inst = .error e) :
    fr.step = .error e := by
  obtain ⟨b, hb, hi, hinst⟩ := h
  rw [step, hb]
  simp only [hi, hinst, hp]
  rfl

theorem At.step_value (h : fr.At i inst) {v : Value} (hp : fr.perform inst = .ok (.value v)) :
    fr.step = .ok (.computed (fr.put i v)) := by
  obtain ⟨b, hb, hi, hinst⟩ := h
  rw [step, hb]
  simp only [hi, hinst, hp]
  rfl

theorem At.step_call (h : fr.At i inst) {callee : String} {args : List Value}
    (hp : fr.perform inst = .ok (.call callee args)) : fr.step = .ok (.call callee args) := by
  obtain ⟨b, hb, hi, hinst⟩ := h
  rw [step, hb]
  simp only [hi, hinst, hp]
  rfl

theorem At.resume (h : fr.At i inst) (v : Value) : fr.resume v = .ok (fr.put i v) := by
  obtain ⟨b, hb, hi, -⟩ := h
  rw [Frame.resume, hb, Option.bind_some, hi]
  rfl

/-- Behind its instructions a frame follows the end of the block. -/
theorem step_of_end {b : Block} {t : Terminator} (hb : fr.function.block? fr.block = some b)
    (hend : b.insts[fr.pos]? = none) (ht : b.terminator? = some t) : fr.step = fr.follow t := by
  rw [step, hb]
  simp only [hend, ht]

/-- Everything that a step can do: perform the instruction at hand, or follow the end of the block. -/
theorem step_cases {s : Step} (h : fr.step = .ok s) :
    (∃ i inst v, fr.At i inst ∧ fr.perform inst = .ok (.value v) ∧ s = .computed (fr.put i v)) ∨
    (∃ i inst callee args, fr.At i inst ∧ fr.perform inst = .ok (.call callee args) ∧
      s = .call callee args) ∨
    ∃ b t, fr.function.block? fr.block = some b ∧ b.insts[fr.pos]? = none ∧
      b.terminator? = some t ∧ fr.follow t = .ok s := by
  rw [step] at h
  split at h
  · cases h
  · next b hb =>
    split at h
    · next i hi =>
      split at h
      · cases h
      · next inst hinst =>
        have hat : fr.At i inst := ⟨b, hb, hi, hinst⟩
        obtain ⟨action, hp, h⟩ := bind_eq_ok_iff.1 h
        cases action with
        | value v => exact .inl ⟨i, inst, v, hat, hp, (Except.ok.inj h).symm⟩
        | call callee args => exact .inr (.inl ⟨i, inst, callee, args, hat, hp, (Except.ok.inj h).symm⟩)
    · next hend =>
      split at h
      · next t ht => exact .inr (.inr ⟨b, t, hb, hend, ht, h⟩)
      · cases h

/-- The end of a block leads to one of its successors, or gives a value back. -/
theorem follow_cases {t : Terminator} {s : Step} (h : fr.follow t = .ok s) :
    (∃ target ∈ t.successors, s = .jumped (fr.jump target)) ∨ ∃ v, s = .returned v := by
  cases t with
  | ret v =>
    obtain ⟨x, -, h⟩ := bind_eq_ok_iff.1 h
    exact .inr ⟨x, (Except.ok.inj h).symm⟩
  | br target => exact .inl ⟨target, List.mem_singleton_self target, (Except.ok.inj h).symm⟩
  | condBr cond onTrue onFalse =>
    obtain ⟨x, -, h⟩ := bind_eq_ok_iff.1 h
    obtain ⟨taken, -, h⟩ := bind_eq_ok_iff.1 h
    refine .inl ⟨if taken then onTrue else onFalse, ?_, (Except.ok.inj h).symm⟩
    cases taken <;> simp [Terminator.successors]

/-- A frame jumps behind the last instruction of a block, to a successor of it. -/
theorem jump_of_step {fr' : Frame} (h : fr.step = .ok (.jumped fr')) :
    ∃ b t target, fr.function.block? fr.block = some b ∧ b.insts[fr.pos]? = none ∧
      b.terminator? = some t ∧ target ∈ t.successors ∧ fr' = fr.jump target := by
  obtain ⟨i, inst, v, -, -, hs⟩ | ⟨i, inst, callee, args, -, -, hs⟩ | ⟨b, t, hb, hend, ht, hf⟩ :=
    step_cases h
  · cases hs
  · cases hs
  · obtain ⟨target, htarget, hs⟩ | ⟨v, hs⟩ := follow_cases hf
    · exact ⟨b, t, target, hb, hend, ht, htarget, Step.jumped.inj hs⟩
    · cases hs

/-- The value of an instruction that has been computed. -/
theorem get_of_values {v : Value} (h : fr.values[i]? = some (some v)) : fr.get (.inst i) = .ok v := by
  rw [get, h]

end Frame

/-! ### Steps -/

/-- The counters when a frame goes on behind a call that has returned. -/
def Meter.resumed (t : Meter) (name : String) : Meter :=
  { t with current? := some name, depth := t.depth - 1, steps := t.steps + 1 }

namespace Thread

variable {m : Ir.Module} {bound : Nat} {t : Meter} {top : Frame} {callers : List Frame}

theorem step_of_error {e : Fault} (h : top.step = .error e) :
    step m bound ⟨t, top, callers⟩ = .ended (.error e) t := by
  simp only [step, h]

theorem step_of_computed {fr : Frame} (h : top.step = .ok (.computed fr)) :
    step m bound ⟨t, top, callers⟩ = .running ⟨t.tick, fr, callers⟩ := by
  simp only [step, h]

theorem step_of_jumped {fr : Frame} (h : top.step = .ok (.jumped fr)) :
    step m bound ⟨t, top, callers⟩ = .running ⟨t, fr, callers⟩ := by
  simp only [step, h]

theorem step_of_returned {v : Value} (h : top.step = .ok (.returned v)) :
    step m bound ⟨t, top, callers⟩ = handDown t v callers := by
  simp only [step, h]

theorem step_of_refused_call {callee : String} {args : List Value} {e : Fault}
    (h : top.step = .ok (.call callee args)) (he : enter m bound t callee args = .error e) :
    step m bound ⟨t, top, callers⟩ = .ended (.error e) t := by
  simp only [step, h, he]

theorem step_of_call {callee : String} {args : List Value} {fr : Frame} {t' : Meter}
    (h : top.step = .ok (.call callee args)) (he : enter m bound t callee args = .ok (fr, t')) :
    step m bound ⟨t, top, callers⟩ = .running ⟨t', fr, top :: callers⟩ := by
  simp only [step, h, he]

/-- Everything that a step can go on with: the topmost frame, the frame that waited for it, or a new one. -/
theorem running_cases {a b : Thread} (h : a.step m bound = .running b) :
    (∃ fr, a.top.step = .ok (.computed fr) ∧ b = ⟨a.meter.tick, fr, a.callers⟩) ∨
    (∃ fr, a.top.step = .ok (.jumped fr) ∧ b = ⟨a.meter, fr, a.callers⟩) ∨
    (∃ v caller callers fr, a.top.step = .ok (.returned v) ∧ a.callers = caller :: callers ∧
      caller.resume v = .ok fr ∧ b = ⟨a.meter.resumed fr.function.name, fr, callers⟩) ∨
    ∃ callee args fr t', a.top.step = .ok (.call callee args) ∧
      enter m bound a.meter callee args = .ok (fr, t') ∧ b = ⟨t', fr, a.top :: a.callers⟩ := by
  obtain ⟨t, top, callers⟩ := a
  cases hs : top.step with
  | error e =>
    rw [step_of_error hs] at h
    cases h
  | ok s =>
    cases s with
    | computed fr =>
      rw [step_of_computed hs] at h
      exact .inl ⟨fr, rfl, (Progress.running.inj h).symm⟩
    | jumped fr =>
      rw [step_of_jumped hs] at h
      exact .inr (.inl ⟨fr, rfl, (Progress.running.inj h).symm⟩)
    | returned v =>
      rw [step_of_returned hs] at h
      cases callers with
      | nil => cases h
      | cons caller callers =>
        rw [handDown] at h
        cases hr : caller.resume v with
        | error e =>
          rw [hr] at h
          cases h
        | ok fr =>
          rw [hr] at h
          exact .inr (.inr (.inl ⟨v, caller, callers, fr, rfl, rfl, hr, (Progress.running.inj h).symm⟩))
    | call callee args =>
      cases he : enter m bound t callee args with
      | error e =>
        rw [step_of_refused_call hs he] at h
        cases h
      | ok entered =>
        rw [step_of_call hs he] at h
        exact .inr (.inr (.inr ⟨callee, args, entered.1, entered.2, rfl, he, (Progress.running.inj h).symm⟩))

/-- Everything that a step can end with: a fault of the topmost frame, the value of the last one, a frame
that cannot go on with a value, or a call that is refused. -/
theorem ended_cases {a : Thread} {r : Except Fault Value} (h : a.step m bound = .ended r t) :
    (∃ e, a.top.step = .error e ∧ r = .error e ∧ t = a.meter) ∨
    (∃ v, a.top.step = .ok (.returned v) ∧ a.callers = [] ∧ r = .ok v ∧
      t = { a.meter with depth := a.meter.depth - 1 }) ∨
    (∃ v caller callers e, a.top.step = .ok (.returned v) ∧ a.callers = caller :: callers ∧
      caller.resume v = .error e ∧ r = .error e ∧ t = { a.meter with depth := a.meter.depth - 1 }) ∨
    ∃ callee args e, a.top.step = .ok (.call callee args) ∧
      enter m bound a.meter callee args = .error e ∧ r = .error e ∧ t = a.meter := by
  obtain ⟨u, top, callers⟩ := a
  cases hs : top.step with
  | error e =>
    rw [step_of_error hs] at h
    cases h
    exact .inl ⟨e, rfl, rfl, rfl⟩
  | ok s =>
    cases s with
    | computed fr =>
      rw [step_of_computed hs] at h
      cases h
    | jumped fr =>
      rw [step_of_jumped hs] at h
      cases h
    | returned v =>
      rw [step_of_returned hs] at h
      cases callers with
      | nil =>
        cases h
        exact .inr (.inl ⟨v, rfl, rfl, rfl, rfl⟩)
      | cons caller callers =>
        rw [handDown] at h
        cases hr : caller.resume v with
        | error e =>
          rw [hr] at h
          cases h
          exact .inr (.inr (.inl ⟨v, caller, callers, e, rfl, rfl, hr, rfl, rfl⟩))
        | ok fr =>
          rw [hr] at h
          cases h
    | call callee args =>
      cases he : enter m bound u callee args with
      | error e =>
        rw [step_of_refused_call hs he] at h
        cases h
        exact .inr (.inr (.inr ⟨callee, args, e, rfl, he, rfl, rfl⟩))
      | ok entered =>
        rw [step_of_call hs he] at h
        cases h

/-! ### Runs -/

/-- A run gets from one point to another: from there it goes on as from here with more fuel. -/
def Reaches (m : Ir.Module) (bound : Nat) (a b : Thread) : Prop :=
  ∃ k, ∀ fuel, a.run m bound (fuel + k) = b.run m bound fuel

/-- A run ends, with this result. -/
def Ends (m : Ir.Module) (bound : Nat) (a : Thread) (result : Except Fault Value) : Prop :=
  ∃ k t, ∀ fuel, a.run m bound (fuel + k) = some (result, t)

theorem Reaches.refl (a : Thread) : Reaches m bound a a := ⟨0, fun _ => rfl⟩

theorem Reaches.trans {a b c : Thread} (hab : Reaches m bound a b) (hbc : Reaches m bound b c) :
    Reaches m bound a c := by
  obtain ⟨k, hk⟩ := hab
  obtain ⟨l, hl⟩ := hbc
  refine ⟨l + k, fun fuel => ?_⟩
  rw [← Nat.add_assoc, hk, hl]

theorem Reaches.ends {a b : Thread} {result : Except Fault Value} (hab : Reaches m bound a b)
    (hb : Ends m bound b result) : Ends m bound a result := by
  obtain ⟨k, hk⟩ := hab
  obtain ⟨l, t, hl⟩ := hb
  refine ⟨l + k, t, fun fuel => ?_⟩
  rw [← Nat.add_assoc, hk, hl]

theorem Reaches.of_step {a b : Thread} (h : a.step m bound = .running b) : Reaches m bound a b := by
  refine ⟨1, fun fuel => ?_⟩
  rw [run, h]

theorem Ends.of_step {a : Thread} {result : Except Fault Value}
    (h : a.step m bound = .ended result t) : Ends m bound a result := by
  refine ⟨1, t, fun fuel => ?_⟩
  rw [run, h]

/-- The points that a run of the function `name` gets to. -/
inductive Visited (m : Ir.Module) (bound : Nat) (t : Meter) (name : String) (args : List Value) :
    Thread → Prop
  | start {fr : Frame} {t' : Meter} (h : enter m bound t name args = .ok (fr, t')) :
      Visited m bound t name args ⟨t', fr, []⟩
  | step {a b : Thread} (h : Visited m bound t name args a) (hs : a.step m bound = .running b) :
      Visited m bound t name args b

/-- A run that ends has got to the point at which it ends. -/
theorem Visited.of_run {name : String} {args : List Value} {fuel : Nat} {a : Thread}
    (h : Visited m bound t name args a) {result : Except Fault Value} {t' : Meter}
    (hrun : a.run m bound fuel = some (result, t')) :
    ∃ b, Visited m bound t name args b ∧ b.step m bound = .ended result t' := by
  induction fuel generalizing a with
  | zero => cases hrun
  | succ fuel ih =>
    rw [run] at hrun
    split at hrun
    · next b hs => exact ih (h.step hs) hrun
    · next result' t'' hs =>
      obtain ⟨rfl, rfl⟩ := Prod.mk.inj (Option.some.inj hrun)
      exact ⟨a, h, hs⟩

end Thread

/-- A run fails where it starts, at a point that it gets to, or for want of fuel. -/
theorem exists_visited_of_error {mc : Machine} {m : Ir.Module} {name : String} {args : List Value}
    {e : Fault} (h : (mc.execute m name args).1 = .error e) (hfuel : e ≠ .outOfFuel) :
    enter m mc.maxDepth mc.meter name args = .error e ∨
      ∃ b t, Thread.Visited m mc.maxDepth mc.meter name args b ∧
        b.step m mc.maxDepth = .ended (.error e) t := by
  unfold execute at h
  split at h
  · next e' he =>
    obtain rfl := Except.error.inj h
    exact .inl he
  · next fr t he =>
    split at h
    · next result t' hrun =>
      have hresult : result = .error e := h
      subst hresult
      obtain ⟨b, hb, hs⟩ := Thread.Visited.of_run (.start he) hrun
      exact .inr ⟨b, t', hb, hs⟩
    · exact absurd (Except.error.inj h).symm hfuel

/-! ### Calls -/

/-- A call that is let in opens a frame at the entry of its callee. -/
theorem start_of_enter {m : Ir.Module} {bound : Nat} {t t' : Meter} {name : String}
    {args : List Value} {fr : Frame} (h : enter m bound t name args = .ok (fr, t')) :
    ∃ f, m.get? name = some f ∧ Frame.start f args = .ok fr := by
  unfold enter at h
  split at h
  · cases h
  · next f hf =>
    split at h
    · cases h
    · split at h
      · cases h
      · obtain ⟨-, -, h⟩ := bind_eq_ok_iff.1 h
        split at h
        · cases h
        · obtain ⟨fr', hfr', h⟩ := bind_eq_ok_iff.1 h
          obtain ⟨rfl, -⟩ := Prod.mk.inj (Except.ok.inj h)
          exact ⟨f, hf, hfr'⟩

theorem checkArgs_of_map_ty {function : String} {params : List Ir.Param} {args : List Value}
    (h : args.map Value.ty = params.map Ir.Param.ty) : checkArgs function params args = .ok () := by
  induction params generalizing args with
  | nil => rfl
  | cons p params ih =>
    cases args with
    | nil => rfl
    | cons v args =>
      rw [List.map_cons, List.map_cons, List.cons.injEq] at h
      rw [checkArgs, if_pos h.1.symm]
      exact ih h.2

end Machine

end ScalarLang
