import ScalarLang.Proofs.Dominance

/-!
# The blocks that an activation comes to

An activation starts at the entry of its function and follows edges; in between it performs instructions
and waits for calls.  If edges lead forward in the layout only, it comes to no block twice.

* `Ir.Function.Way.nodup` — a way along edges that lead forward passes no block twice.
* `Machine.Frame.Visits` — the blocks that an activation has come to, whatever its calls have returned.
* `Machine.Thread.Active` — every frame of a run is an activation in this sense.
* `Machine.Thread.step_active`, `Machine.Thread.Visited.active` — one step keeps this, and so does a run.
-/

namespace ScalarLang

namespace Ir

namespace Function

variable {f : Function}

/-- The blocks on a way stand in the order of the layout. -/
theorem Way.idxOf_lt (hforward : ∀ id s, s ∈ f.succsAt id → f.layout.idxOf id < f.layout.idxOf s)
    {before : List BlockId} {id : BlockId} (hw : f.Way before id) :
    ∀ a ∈ before, f.layout.idxOf a < f.layout.idxOf id := by
  induction hw with
  | entry h =>
    intro a ha
    cases ha
  | @edge before source target hw he ih =>
    have hlt := hforward source target he
    intro a ha
    rcases List.mem_cons.1 ha with rfl | ha
    · exact hlt
    · exact (ih a ha).trans hlt

/-- **Where edges lead forward, no way passes a block twice.** -/
theorem Way.nodup (hforward : ∀ id s, s ∈ f.succsAt id → f.layout.idxOf id < f.layout.idxOf s)
    {before : List BlockId} {id : BlockId} (hw : f.Way before id) : (id :: before).Nodup := by
  induction hw with
  | entry h => exact List.nodup_singleton _
  | @edge before source target hw he ih =>
    refine List.nodup_cons.2 ⟨fun hin => ?_, ih⟩
    have hlt := (Way.edge hw he).idxOf_lt hforward target hin
    omega

end Function

end Ir

namespace Machine

open Ir

/-! ### One activation -/

/-- The frame has come to the blocks `seen`, the last one first.  It has started at the entry of its
function, performed instructions, gone on behind calls with whatever they returned, and jumped. -/
inductive Frame.Visits : Frame → List BlockId → Prop
  | start {f : Function} {args : List Value} {fr : Frame} (h : Frame.start f args = .ok fr) :
      Visits fr [fr.block]
  | computed {fr fr' : Frame} {seen : List BlockId} (h : Visits fr seen)
      (hs : fr.step = .ok (.computed fr')) : Visits fr' seen
  | resumed {fr fr' : Frame} {seen : List BlockId} {callee : String} {args : List Value} {v : Value}
      (h : Visits fr seen) (hs : fr.step = .ok (.call callee args)) (hr : fr.resume v = .ok fr') :
      Visits fr' seen
  | jumped {fr fr' : Frame} {seen : List BlockId} (h : Visits fr seen)
      (hs : fr.step = .ok (.jumped fr')) : Visits fr' (fr'.block :: seen)

namespace Frame

variable {fr fr' : Frame}

theorem start_block {f : Function} {args : List Value} (h : start f args = .ok fr) :
    fr.function.entry? = some fr.block := by
  unfold start at h
  cases hentry : f.entry? with
  | none =>
    rw [hentry] at h
    cases h
  | some entry =>
    rw [hentry] at h
    obtain rfl := Except.ok.inj h
    exact hentry

theorem computed_block (h : fr.step = .ok (.computed fr')) :
    fr'.function = fr.function ∧ fr'.block = fr.block := by
  obtain ⟨i, inst, v, -, -, hs⟩ | ⟨i, inst, callee, args, -, -, hs⟩ | ⟨b, t, -, -, -, hf⟩ := step_cases h
  · obtain rfl := Step.computed.inj hs
    exact ⟨rfl, rfl⟩
  · cases hs
  · obtain ⟨target, -, hs⟩ | ⟨v, hs⟩ := follow_cases hf <;> cases hs

theorem resume_block {v : Value} (h : fr.resume v = .ok fr') :
    fr'.function = fr.function ∧ fr'.block = fr.block := by
  unfold resume at h
  cases hi : (fr.function.block? fr.block).bind fun b => b.insts[fr.pos]? with
  | none =>
    rw [hi] at h
    cases h
  | some i =>
    rw [hi] at h
    obtain rfl := Except.ok.inj h
    exact ⟨rfl, rfl⟩

/-- An activation has come along a way. -/
theorem Visits.way {seen : List BlockId} (h : fr.Visits seen) :
    ∃ before, seen = fr.block :: before ∧ fr.function.Way before fr.block := by
  induction h with
  | start h => exact ⟨[], rfl, .entry (start_block h)⟩
  | computed _ hs ih =>
    obtain ⟨hfun, hblock⟩ := computed_block hs
    rw [hfun, hblock]
    exact ih
  | resumed _ _ hr ih =>
    obtain ⟨hfun, hblock⟩ := resume_block hr
    rw [hfun, hblock]
    exact ih
  | @jumped fr fr' seen _ hs ih =>
    obtain ⟨before, rfl, hw⟩ := ih
    obtain ⟨b, t, target, hb, -, ht, htarget, rfl⟩ := jump_of_step hs
    refine ⟨fr.block :: before, rfl, .edge hw ?_⟩
    show target ∈ fr.function.succsAt fr.block
    rw [Function.succsAt_of_block? hb ht]
    exact htarget

end Frame

/-! ### All activations of a run -/

namespace Thread

variable {m : Ir.Module} {bound : Nat}

/-- Every frame is an activation, and those below the topmost wait at a call. -/
def Active (a : Thread) : Prop :=
  (∃ seen, a.top.Visits seen) ∧
    ∀ fr ∈ a.callers, (∃ seen, fr.Visits seen) ∧ ∃ callee args, fr.step = .ok (.call callee args)

/-- **One step of a run goes on with one activation, or starts one.** -/
theorem step_active {a b : Thread} (h : a.Active) (hs : a.step m bound = .running b) : b.Active := by
  obtain ⟨⟨seen, htop⟩, hcallers⟩ := h
  obtain ⟨fr, hstep, rfl⟩ | ⟨fr, hstep, rfl⟩ | ⟨v, caller, callers, fr, -, hstack, hr, rfl⟩ |
    ⟨callee, args, fr, t, hstep, he, rfl⟩ := running_cases hs
  · exact ⟨⟨seen, htop.computed hstep⟩, hcallers⟩
  · exact ⟨⟨_, htop.jumped hstep⟩, hcallers⟩
  · rw [hstack] at hcallers
    obtain ⟨⟨⟨seen', hcaller⟩, callee, args, hcall⟩, hrest⟩ := List.forall_mem_cons.1 hcallers
    exact ⟨⟨seen', hcaller.resumed hcall hr⟩, hrest⟩
  · obtain ⟨f, -, hstart⟩ := start_of_enter he
    exact ⟨⟨_, .start hstart⟩, List.forall_mem_cons.2 ⟨⟨⟨seen, htop⟩, callee, args, hstep⟩, hcallers⟩⟩

/-- **Every frame of a run is an activation.** -/
theorem Visited.active {t : Meter} {name : String} {args : List Value} {a : Thread}
    (h : Visited m bound t name args a) : a.Active := by
  induction h with
  | start he =>
    obtain ⟨f, -, hstart⟩ := start_of_enter he
    refine ⟨⟨_, .start hstart⟩, fun fr hfr => ?_⟩
    cases hfr
  | step _ hs ih => exact step_active ih hs

end Thread

end Machine

end ScalarLang
