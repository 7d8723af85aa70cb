import ScalarLang.Proofs.Recursion

/-!
# What a machine counts

A machine counts the height of its stack, now and at most, and its steps.  Of all this a run looks at the
height only, and the height is that of the stack.  So a machine that has run functions before gives the
results of one that has not, and its counters go on from where they were.

* `Machine.Meter.Kept` — a relation between meters that no step of a run breaks.
* `Machine.Thread.Related.step`, `Machine.Thread.Related.run` — two runs from one point, with meters that
  are related, stay at one point and end alike.
* `Machine.Thread.Visited.depth_eq` — the height that is counted is the height of the stack.
* `Machine.Thread.deepest_le_of_run` — it never exceeds the bound.
* `Machine.Meter.after` — what is counted on top of earlier counts.
* `Machine.execute_of_idle` — a run on a machine that has counted something, by the same run on a fresh one.
* `Machine.execute_of_history` — the same after any history of runs and resets.
-/

namespace ScalarLang

namespace Machine

open Ir

variable {m : Ir.Module} {bound fuel : Nat}

/-! ### Runs that differ in their meters -/

/-- A relation between meters that steps keep.  Related meters have the same height, and whatever a step
does to one of them it does to the other. -/
structure Meter.Kept (R : Meter → Meter → Prop) : Prop where
  depth : ∀ {t u}, R t u → t.depth = u.depth
  tick : ∀ {t u}, R t u → R t.tick u.tick
  deeper : ∀ {t u} (name), R t u → R (t.deeper name) (u.deeper name)
  resumed : ∀ {t u} (name), R t u → R (t.resumed name) (u.resumed name)
  shallower : ∀ {t u}, R t u → R { t with depth := t.depth - 1 } { u with depth := u.depth - 1 }

/-- Runs that stand at one point, with meters that are related. -/
structure Thread.Related (R : Meter → Meter → Prop) (a b : Thread) : Prop where
  top : a.top = b.top
  callers : a.callers = b.callers
  meter : R a.meter b.meter

/-- What a step leads to, from one point with meters that are related. -/
inductive Progress.Related (R : Meter → Meter → Prop) : Progress → Progress → Prop
  | running {a b : Thread} (h : a.Related R b) : Related R (.running a) (.running b)
  | ended (r : Except Fault Value) {t u : Meter} (h : R t u) : Related R (.ended r t) (.ended r u)

namespace Thread

variable {R : Meter → Meter → Prop} {a b : Thread}

/-- **A step does not see the meter**, apart from the height. -/
theorem Related.step (hR : Meter.Kept R) (h : a.Related R b) :
    Progress.Related R (a.step m bound) (b.step m bound) := by
  obtain ⟨t, top, callers⟩ := a
  obtain ⟨u, _, _⟩ := b
  obtain ⟨rfl, rfl, hmeter⟩ := h
  cases hs : top.step with
  | error e =>
    rw [step_of_error hs, step_of_error hs]
    exact .ended _ hmeter
  | ok s =>
    cases s with
    | computed fr =>
      rw [step_of_computed hs, step_of_computed hs]
      exact .running ⟨rfl, rfl, hR.tick hmeter⟩
    | jumped fr =>
      rw [step_of_jumped hs, step_of_jumped hs]
      exact .running ⟨rfl, rfl, hmeter⟩
    | returned v =>
      rw [step_of_returned hs, step_of_returned hs]
      cases callers with
      | nil => exact .ended _ (hR.shallower hmeter)
      | cons caller callers =>
        simp only [handDown]
        cases caller.resume v with
        | error e => exact .ended _ (hR.shallower hmeter)
        | ok fr => exact .running ⟨rfl, rfl, hR.resumed _ hmeter⟩
    | call callee args =>
      have ht := enter_eq_checkCall m bound t callee args
      have hu := enter_eq_checkCall m bound u callee args
      rw [← hR.depth hmeter] at hu
      cases hc : Plain.checkCall m bound t.depth callee args with
      | error e =>
        rw [hc] at ht hu
        rw [step_of_refused_call hs ht, step_of_refused_call hs hu]
        exact .ended _ hmeter
      | ok fr =>
        rw [hc] at ht hu
        rw [step_of_call hs ht, step_of_call hs hu]
        exact .running ⟨rfl, rfl, hR.deeper callee hmeter⟩

/-- **Nor does a run.** -/
theorem Related.run (hR : Meter.Kept R) (h : a.Related R b) (m : Ir.Module) (bound fuel : Nat) :
    (a.run m bound fuel = none ∧ b.run m bound fuel = none) ∨
      ∃ r t u, a.run m bound fuel = some (r, t) ∧ b.run m bound fuel = some (r, u) ∧ R t u := by
  induction fuel generalizing a b with
  | zero => exact .inl ⟨rfl, rfl⟩
  | succ fuel ih =>
    have hstep : Progress.Related R (a.step m bound) (b.step m bound) := h.step hR
    rw [Thread.run, Thread.run]
    generalize a.step m bound = p at hstep
    generalize b.step m bound = q at hstep
    cases hstep with
    | running h => exact ih h
    | ended r h => exact .inr ⟨r, _, _, rfl, rfl, h⟩

end Thread

/-! ### The height of the stack -/

/-- What the bound has to do with the checks of a call: they fail before they get to it, or they fail
because of it, or it does not matter. -/
theorem enter_bound (m : Ir.Module) (t : Meter) (name : String) (args : List Value) :
    (∃ e, ∀ bound, enter m bound t name args = .error e) ∨
      ∃ x : Except Fault Frame, ∀ bound, enter m bound t name args =
        if bound ≤ t.depth then .error (.stackOverflow bound)
        else x.map fun fr => (fr, t.deeper name) := by
  unfold enter
  cases m.get? name with
  | none => exact .inl ⟨_, fun _ => rfl⟩
  | some f =>
    simp only
    split
    · exact .inl ⟨_, fun _ => rfl⟩
    · split
      · exact .inl ⟨_, fun _ => rfl⟩
      · cases checkArgs name f.params args with
        | error e => exact .inl ⟨e, fun _ => rfl⟩
        | ok _ =>
          refine .inr ⟨Frame.start f args, fun bound => ?_⟩
          show (if bound ≤ t.depth then _ else _) = _
          split
          · rfl
          · cases Frame.start f args <;> rfl

/-- A call that is let in finds room on the stack, and takes it. -/
theorem lt_of_enter {t t' : Meter} {name : String} {args : List Value} {fr : Frame}
    (h : enter m bound t name args = .ok (fr, t')) : t.depth < bound ∧ t' = t.deeper name := by
  refine ⟨?_, (checkCall_of_enter h).2⟩
  obtain ⟨e, he⟩ | ⟨x, hx⟩ := enter_bound m t name args
  · rw [he] at h
    cases h
  · rw [hx] at h
    split at h
    · cases h
    · next hroom => exact Nat.not_le.1 hroom

namespace Thread

/-- One step counts the frames that it pushes and pops. -/
theorem depth_eq_of_step {a b : Thread} {base : Nat}
    (h : a.meter.depth = base + (a.callers.length + 1)) (hs : a.step m bound = .running b) :
    b.meter.depth = base + (b.callers.length + 1) := by
  obtain ⟨fr, -, rfl⟩ | ⟨fr, -, rfl⟩ | ⟨v, caller, callers, fr, -, hstack, -, rfl⟩ |
    ⟨callee, args, fr, t, -, he, rfl⟩ := running_cases hs
  · exact h
  · exact h
  · rw [hstack, List.length_cons] at h
    show a.meter.depth - 1 = base + (callers.length + 1)
    omega
  · rw [(lt_of_enter he).2]
    show a.meter.depth + 1 = base + (a.callers.length + 1 + 1)
    omega

/-- **During a run the height that is counted is the height of the stack**, on top of the height it has
started from. -/
theorem Visited.depth_eq {t : Meter} {name : String} {args : List Value} {a : Thread}
    (h : Visited m bound t name args a) : a.meter.depth = t.depth + (a.callers.length + 1) := by
  induction h with
  | start he =>
    rw [(lt_of_enter he).2]
    rfl
  | step _ hs ih => exact depth_eq_of_step ih hs

theorem deepest_le_of_step {a b : Thread} (h : a.meter.deepest ≤ bound)
    (hs : a.step m bound = .running b) : b.meter.deepest ≤ bound := by
  obtain ⟨fr, -, rfl⟩ | ⟨fr, -, rfl⟩ | ⟨v, caller, callers, fr, -, -, -, rfl⟩ |
    ⟨callee, args, fr, t, -, he, rfl⟩ := running_cases hs
  · exact h
  · exact h
  · exact h
  · obtain ⟨hroom, rfl⟩ := lt_of_enter he
    exact max_le h hroom

/-- The end of a run leaves the greatest height as it was. -/
theorem deepest_of_ended {a : Thread} {r : Except Fault Value} {t : Meter}
    (h : a.step m bound = .ended r t) : t.deepest = a.meter.deepest := by
  obtain ⟨e, -, -, rfl⟩ | ⟨v, -, -, -, rfl⟩ | ⟨v, caller, callers, e, -, -, -, -, rfl⟩ |
    ⟨callee, args, e, -, -, -, rfl⟩ := ended_cases h <;> rfl

/-- **A run never exceeds the bound.** -/
theorem deepest_le_of_run {a : Thread} {r : Except Fault Value} {t : Meter}
    (h : a.meter.deepest ≤ bound) (hrun : a.run m bound fuel = some (r, t)) : t.deepest ≤ bound := by
  induction fuel generalizing a with
  | zero => cases hrun
  | succ fuel ih =>
    rw [run] at hrun
    split at hrun
    · next b hs => exact ih (deepest_le_of_step h hs) hrun
    · next r' t' hs =>
      obtain ⟨rfl, rfl⟩ := Prod.mk.inj (Option.some.inj hrun)
      rw [deepest_of_ended hs]
      exact h

end Thread

/-! ### Counts on top of earlier counts -/

/-- The counts `t`, on top of what had been counted before. -/
def Meter.after (t earlier : Meter) : Meter :=
  { t with deepest := max earlier.deepest t.deepest, steps := earlier.steps + t.steps }

theorem Meter.kept_after (earlier : Meter) : Meter.Kept fun t u => t = u.after earlier where
  depth := by
    rintro _ u rfl
    rfl
  tick := by
    rintro _ u rfl
    rfl
  deeper := by
    rintro _ u name rfl
    simp only [Meter.after, Meter.deeper, max_assoc]
  resumed := by
    rintro _ u name rfl
    rfl
  shallower := by
    rintro _ u rfl
    rfl

/-- Between runs the stack is empty and no function is running. -/
structure Idle (mc : Machine) : Prop where
  current? : mc.meter.current? = none
  depth : mc.meter.depth = 0

/-- **A run on a machine that has counted something** ends as on a fresh one, and adds what is counted
there. -/
theorem execute_of_idle {mc : Machine} (h : mc.Idle) (m : Ir.Module) (name : String)
    (args : List Value) :
    mc.execute m name args =
      let fresh := ({ maxDepth := mc.maxDepth, fuel := mc.fuel } : Machine).execute m name args
      (fresh.1, { mc with meter := fresh.2.meter.after mc.meter }) := by
  obtain ⟨bound, fuel, current, depth, deepest, steps⟩ := mc
  obtain ⟨rfl : current = none, rfl : depth = 0⟩ := h
  simp only [execute, enter_eq_checkCall]
  cases Plain.checkCall m bound 0 name args with
  | error e => simp [Except.map, Meter.after]
  | ok fr =>
    have hstart : Thread.Related (fun t u => t = u.after ⟨none, 0, deepest, steps⟩)
        ⟨Meter.deeper ⟨none, 0, deepest, steps⟩ name, fr, []⟩ ⟨Meter.deeper {} name, fr, []⟩ := by
      refine ⟨rfl, rfl, ?_⟩
      simp [Meter.after, Meter.deeper]
    obtain ⟨ha, hb⟩ | ⟨r, t, u, ha, hb, ht⟩ := hstart.run (Meter.kept_after _) m bound fuel
    · simp only [Except.map, ha, hb]
      simp [Meter.after]
    · simp only [Except.map, ha, hb, ht]
      rfl

/-! ### Histories -/

/-- What can be asked of a machine. -/
inductive Request where
  | execute (m : Ir.Module) (name : String) (args : List Value)
  | reset

/-- The machine after a request. -/
def serve (mc : Machine) : Request → Machine
  | .execute m name args => (mc.execute m name args).2
  | .reset => mc.reset

/-- A machine as runs and resets leave it: with the bounds it was made with, idle, and not over its
bound. -/
structure Settled (bound fuel : Nat) (mc : Machine) : Prop where
  maxDepth : mc.maxDepth = bound
  fuel : mc.fuel = fuel
  idle : mc.Idle
  deepest : mc.meter.deepest ≤ bound

theorem settled_fresh (bound fuel : Nat) : Settled bound fuel { maxDepth := bound, fuel } :=
  ⟨rfl, rfl, ⟨rfl, rfl⟩, Nat.zero_le bound⟩

theorem Settled.execute {mc : Machine} (h : mc.Settled bound fuel) (m : Ir.Module) (name : String)
    (args : List Value) : (mc.execute m name args).2.Settled bound fuel := by
  unfold Machine.execute
  split
  · exact h
  · next fr t he =>
    split
    · next r t' hrun =>
      obtain ⟨rfl, rfl, hidle, hdeepest⟩ := h
      obtain ⟨hroom, rfl⟩ := lt_of_enter he
      have hle : t'.deepest ≤ mc.maxDepth := Thread.deepest_le_of_run (max_le hdeepest hroom) hrun
      exact ⟨rfl, rfl, ⟨hidle.current?, hidle.depth⟩, hle⟩
    · exact h

/-- One request leaves a machine settled. -/
theorem Settled.serve {mc : Machine} (h : mc.Settled bound fuel) (request : Request) :
    (mc.serve request).Settled bound fuel := by
  cases request with
  | execute m name args => exact h.execute m name args
  | reset => exact ⟨h.maxDepth, h.fuel, ⟨rfl, rfl⟩, Nat.zero_le bound⟩

/-- And so does any history of requests. -/
theorem Settled.serveAll {mc : Machine} (h : mc.Settled bound fuel) (history : List Request) :
    (history.foldl Machine.serve mc).Settled bound fuel := by
  induction history generalizing mc with
  | nil => exact h
  | cons request history ih => exact ih (h.serve request)

/-- **Runs do not depend on history.**  After any runs of functions of any modules, whatever they have
ended with, and any resets, a machine is idle and not over its bound.  The next run, of any function,
ends with the result that it has on a fresh machine; its steps are added, and the greatest height is the
greater one of the two.  During that run the height that is counted is that of the stack. -/
theorem execute_of_history (bound fuel : Nat) (history : List Request) :
    let fresh : Machine := { maxDepth := bound, fuel }
    let mc := history.foldl serve fresh
    mc.meter.current? = none ∧ mc.meter.depth = 0 ∧ mc.meter.deepest ≤ bound ∧
      ∀ (m : Ir.Module) (name : String) (args : List Value),
        (let alone := fresh.execute m name args
        mc.execute m name args = (alone.1, { maxDepth := bound, fuel, meter := {
          deepest := max mc.meter.deepest alone.2.meter.deepest
          steps := mc.meter.steps + alone.2.meter.steps } })) ∧
        ∀ a, Thread.Visited m bound mc.meter name args a → a.meter.depth = a.callers.length + 1 := by
  intro fresh mc
  obtain ⟨hbound, hfuel, hidle, hdeepest⟩ : mc.Settled bound fuel :=
    (settled_fresh bound fuel).serveAll history
  refine ⟨hidle.current?, hidle.depth, hdeepest, fun m name args => ⟨?_, fun a ha => ?_⟩⟩
  · intro alone
    have halone : alone.2.Idle := ((settled_fresh bound fuel).execute m name args).idle
    rw [execute_of_idle hidle, hbound, hfuel]
    show (alone.1, ({ maxDepth := bound, fuel, meter := alone.2.meter.after mc.meter } : Machine)) = _
    rw [Meter.after, halone.current?, halone.depth]
  · rw [ha.depth_eq, hidle.depth, Nat.zero_add]

end Machine

end ScalarLang
