import ScalarLang.Proofs.Counting

/-!
# The bound on the stack

The only thing that a run does with the bound is to compare it with the height of the stack, when it is
about to push a frame.  So the runs of a function under two bounds go in step as long as both bounds leave
room, and a run that has ended with a value would have ended so under every bound that it has not
exceeded.

* `Machine.Thread.step_bound` — a step does not depend on the bound, or pushes a frame if there is room.
* `Machine.Thread.run_of_le_bound` — a greater bound changes nothing but overflows.
* `Machine.Thread.run_threshold` — the bounds under which a run ends as it does are those from the
  greatest height on.
* `Machine.execute_threshold` — the same for whole functions.
-/

namespace ScalarLang

namespace Machine

open Ir

variable {m : Ir.Module} {bound bound' fuel fuel' : Nat}

/-! ### Steps -/

namespace Thread

/-- **A step under all bounds at once.**  Either it does not depend on the bound and pushes no frame, or it
pushes one if there is room, and the bound is not looked at any further. -/
theorem step_bound (m : Ir.Module) (a : Thread) :
    (∃ p, (∀ bound, a.step m bound = p) ∧
      ∀ b, p = .running b → b.meter.deepest = a.meter.deepest) ∨
    ∃ p, (∀ bound, a.step m bound =
        if bound ≤ a.meter.depth then .ended (.error (.stackOverflow bound)) a.meter else p) ∧
      (∀ r t, p = .ended r t → ∃ e, r = .error e) ∧
      ∀ b, p = .running b → b.meter.deepest = max a.meter.deepest (a.meter.depth + 1) := by
  obtain ⟨t, top, callers⟩ := a
  cases hs : top.step with
  | error e =>
    refine .inl ⟨_, fun _ => step_of_error hs, ?_⟩
    rintro _ ⟨⟩
  | ok s =>
    cases s with
    | computed fr =>
      refine .inl ⟨_, fun _ => step_of_computed hs, ?_⟩
      rintro _ ⟨⟩
      rfl
    | jumped fr =>
      refine .inl ⟨_, fun _ => step_of_jumped hs, ?_⟩
      rintro _ ⟨⟩
      rfl
    | returned v =>
      refine .inl ⟨_, fun _ => step_of_returned hs, fun b hb => ?_⟩
      cases callers with
      | nil => cases hb
      | cons caller callers =>
        rw [handDown] at hb
        cases hr : caller.resume v with
        | error e =>
          rw [hr] at hb
          cases hb
        | ok fr =>
          rw [hr] at hb
          cases hb
          rfl
    | call callee args =>
      obtain ⟨e, he⟩ | ⟨x, hx⟩ := enter_bound m t callee args
      · refine .inl ⟨_, fun bound => step_of_refused_call hs (he bound), ?_⟩
        rintro _ ⟨⟩
      · have hoverflow : ∀ bound, bound ≤ t.depth →
            step m bound ⟨t, top, callers⟩ = .ended (.error (.stackOverflow bound)) t :=
          fun bound hfull => step_of_refused_call hs ((hx bound).trans (if_pos hfull))
        cases x with
        | error e =>
          refine .inr ⟨.ended (.error e) t, fun bound => ?_, ?_, ?_⟩
          · split
            · next hfull => exact hoverflow bound hfull
            · next hroom => exact step_of_refused_call hs ((hx bound).trans (if_neg hroom))
          · rintro _ _ ⟨⟩
            exact ⟨e, rfl⟩
          · rintro _ ⟨⟩
        | ok fr =>
          refine .inr ⟨.running ⟨t.deeper callee, fr, top :: callers⟩, fun bound => ?_, ?_, ?_⟩
          · split
            · next hfull => exact hoverflow bound hfull
            · next hroom => exact step_of_call hs ((hx bound).trans (if_neg hroom))
          · rintro _ _ ⟨⟩
          · rintro _ ⟨⟩
            rfl

/-! ### Runs -/

theorem run_of_running {a b : Thread} (h : a.step m bound = .running b) :
    a.run m bound (fuel + 1) = b.run m bound fuel := by
  rw [run, h]

theorem run_of_ended {a : Thread} {r : Except Fault Value} {t : Meter}
    (h : a.step m bound = .ended r t) : a.run m bound (fuel + 1) = some (r, t) := by
  rw [run, h]

/-- A run that has ended needs no more fuel. -/
theorem run_of_le_fuel {a : Thread} {out : Except Fault Value × Meter} (hle : fuel ≤ fuel')
    (hrun : a.run m bound fuel = some out) : a.run m bound fuel' = some out := by
  induction fuel generalizing a fuel' with
  | zero => cases hrun
  | succ fuel ih =>
    obtain ⟨fuel', rfl⟩ := Nat.exists_eq_add_of_le' (Nat.le_of_add_left_le hle)
    cases hs : a.step m bound with
    | running b =>
      rw [run_of_running hs] at hrun ⊢
      exact ih (by omega) hrun
    | ended r t =>
      rw [run_of_ended hs] at hrun ⊢
      exact hrun

/-- The greatest height does not get less. -/
theorem deepest_mono_of_run {a : Thread} {r : Except Fault Value} {t : Meter}
    (hrun : a.run m bound fuel = some (r, t)) : a.meter.deepest ≤ t.deepest := by
  induction fuel generalizing a with
  | zero => cases hrun
  | succ fuel ih =>
    cases hs : a.step m bound with
    | running b =>
      rw [run_of_running hs] at hrun
      refine le_trans ?_ (ih hrun)
      obtain ⟨p, hp, hsame⟩ | ⟨p, hp, -, hpush⟩ := step_bound m a
      · rw [hsame b ((hp bound).symm.trans hs)]
      · rw [hp] at hs
        split at hs
        · cases hs
        · rw [hpush b hs]
          exact le_max_left _ _
    | ended r' t' =>
      rw [run_of_ended hs] at hrun
      obtain ⟨rfl, rfl⟩ := Prod.mk.inj (Option.some.inj hrun)
      rw [deepest_of_ended hs]

/-- **A greater bound changes nothing but overflows.** -/
theorem run_of_le_bound {a : Thread} {r : Except Fault Value} {t : Meter} (hle : bound ≤ bound')
    (hr : ∀ b, r ≠ .error (.stackOverflow b)) (hrun : a.run m bound fuel = some (r, t)) :
    a.run m bound' fuel = some (r, t) := by
  induction fuel generalizing a with
  | zero => cases hrun
  | succ fuel ih =>
    have hstep : a.step m bound' = a.step m bound := by
      obtain ⟨p, hp, -⟩ | ⟨p, hp, -, -⟩ := step_bound m a
      · rw [hp, hp]
      · rw [hp, hp]
        by_cases hfull : bound ≤ a.meter.depth
        · -- the run has not overflowed
          have hover := hp bound
          rw [if_pos hfull] at hover
          rw [run_of_ended hover] at hrun
          exact absurd (Prod.mk.inj (Option.some.inj hrun)).1.symm (hr bound)
        · rw [if_neg hfull, if_neg (by omega)]
    cases hs : a.step m bound with
    | running b =>
      rw [run_of_running hs] at hrun
      rw [run_of_running (hstep.trans hs)]
      exact ih hrun
    | ended r' t' =>
      rw [run_of_ended hs] at hrun
      rw [run_of_ended (hstep.trans hs)]
      exact hrun

/-- **The bounds that a run fits into.**  A run that has ended with a value ends so under every bound that
is not below the greatest height it has come to, and overflows under every other. -/
theorem run_threshold {a : Thread} {v : Value} {t : Meter} (ha : a.meter.deepest ≤ bound')
    (hrun : a.run m bound fuel = some (.ok v, t)) :
    (t.deepest ≤ bound' → a.run m bound' fuel = some (.ok v, t)) ∧
      (bound' < t.deepest → ∃ t', a.run m bound' fuel = some (.error (.stackOverflow bound'), t')) := by
  induction fuel generalizing a with
  | zero => cases hrun
  | succ fuel ih =>
    obtain ⟨p, hp, hsame⟩ | ⟨p, hp, hend, hpush⟩ := step_bound m a
    · have hs := hp bound
      have hs' := hp bound'
      cases p with
      | running b =>
        rw [run_of_running hs] at hrun
        rw [run_of_running hs']
        exact ih ((hsame b rfl).trans_le ha) hrun
      | ended r t' =>
        have hdeepest := deepest_of_ended hs
        rw [run_of_ended hs] at hrun
        rw [run_of_ended hs']
        obtain ⟨rfl, rfl⟩ := Prod.mk.inj (Option.some.inj hrun)
        exact ⟨fun _ => rfl, fun hlt => absurd hlt (by omega)⟩
    · -- the step has pushed a frame, since the run has not overflowed
      have hs := hp bound
      have hs' := hp bound'
      split at hs
      · rw [run_of_ended hs] at hrun
        cases hrun
      · cases p with
        | ended r t' =>
          obtain ⟨e, rfl⟩ := hend r t' rfl
          rw [run_of_ended hs] at hrun
          cases hrun
        | running b =>
          rw [run_of_running hs] at hrun
          have hb := hpush b rfl
          have hmono := deepest_mono_of_run hrun
          by_cases hfull : bound' ≤ a.meter.depth
          · rw [if_pos hfull] at hs'
            rw [run_of_ended hs']
            exact ⟨fun hle => absurd hle (by omega), fun _ => ⟨_, rfl⟩⟩
          · rw [if_neg hfull] at hs'
            rw [run_of_running hs']
            exact ih (by omega) hrun

end Thread

/-! ### Functions -/

section Execute

variable {name : String} {args : List Value}

/-- A run of a function that has ended: it was refused, or it has run to its end. -/
theorem execute_cases {mc mc' : Machine} {r : Except Fault Value} (hr : Unspent r)
    (h : mc.execute m name args = (r, mc')) :
    (∃ e, enter m mc.maxDepth mc.meter name args = .error e ∧ r = .error e ∧ mc' = mc) ∨
      ∃ fr t, enter m mc.maxDepth mc.meter name args = .ok (fr, mc.meter.deeper name) ∧
        Thread.run m mc.maxDepth mc.fuel ⟨mc.meter.deeper name, fr, []⟩ = some (r, t) ∧
        mc' = mc.settle t := by
  unfold execute at h
  split at h
  · next e he =>
    obtain ⟨rfl, rfl⟩ := Prod.mk.inj h
    exact .inl ⟨e, he, rfl, rfl⟩
  · next fr t he =>
    obtain ⟨-, rfl⟩ := lt_of_enter he
    split at h
    · next r' t' hrun =>
      obtain ⟨rfl, rfl⟩ := Prod.mk.inj h
      exact .inr ⟨fr, t', he, hrun, rfl⟩
    · obtain ⟨rfl, -⟩ := Prod.mk.inj h
      exact absurd rfl hr

/-- A call that is let in is let in under every bound that leaves room, and under no other. -/
theorem enter_of_ok {t : Meter} {entered : Frame × Meter} (h : enter m bound t name args = .ok entered)
    (bound' : Nat) : enter m bound' t name args =
      if bound' ≤ t.depth then .error (.stackOverflow bound') else .ok entered := by
  obtain ⟨e, he⟩ | ⟨x, hx⟩ := enter_bound m t name args
  · rw [he] at h
    cases h
  · rw [hx] at h ⊢
    split at h
    · cases h
    · rw [h]

/-- A call that is refused is refused for the same reason under greater bounds, unless that was the
bound. -/
theorem enter_of_error {t : Meter} {e : Fault} (hle : bound ≤ bound') (he : ∀ b, e ≠ .stackOverflow b)
    (h : enter m bound t name args = .error e) : enter m bound' t name args = .error e := by
  obtain ⟨e', he'⟩ | ⟨x, hx⟩ := enter_bound m t name args
  · rw [he'] at h ⊢
    exact h
  · rw [hx] at h ⊢
    split at h
    · exact absurd (Except.error.inj h).symm (he bound)
    · next hroom => rw [if_neg (by omega), h]

/-- **The bound is a sharp threshold.**  If a fresh machine ends with a value, the greatest height `h` that
it has come to is at least one and not over its bound.  Under every bound from `h` on, a fresh machine ends
with that value and those counts, and under every bound below `h` with an overflow of that bound.  If it
ends with a fault that is neither an overflow nor want of fuel, it does so under every greater bound.  More
fuel makes no difference to any of this. -/
theorem execute_threshold (m : Ir.Module) (name : String) (args : List Value) (bound fuel : Nat) :
    (∀ v mc, ({ maxDepth := bound, fuel } : Machine).execute m name args = (.ok v, mc) →
      1 ≤ mc.meter.deepest ∧ mc.meter.deepest ≤ bound ∧
      ∀ bound' fuel', fuel ≤ fuel' →
        (mc.meter.deepest ≤ bound' →
          ({ maxDepth := bound', fuel := fuel' } : Machine).execute m name args =
            (.ok v, { maxDepth := bound', fuel := fuel', meter := mc.meter })) ∧
        (bound' < mc.meter.deepest →
          (({ maxDepth := bound', fuel := fuel' } : Machine).execute m name args).1 =
            .error (.stackOverflow bound'))) ∧
    ∀ e mc, ({ maxDepth := bound, fuel } : Machine).execute m name args = (.error e, mc) →
      (∀ b, e ≠ .stackOverflow b) → e ≠ .outOfFuel →
      ∀ bound' fuel', bound ≤ bound' → fuel ≤ fuel' →
        ({ maxDepth := bound', fuel := fuel' } : Machine).execute m name args =
          (.error e, { maxDepth := bound', fuel := fuel', meter := mc.meter }) := by
  refine ⟨fun v mc h => ?_, fun e mc h hover hfuel bound' fuel' hbound hle => ?_⟩
  · obtain ⟨e, -, he, -⟩ | ⟨fr, t, henter, hrun, rfl⟩ := execute_cases (Unspent.ok v) h
    · cases he
    · have hroom : 0 < bound := (lt_of_enter henter).1
      have hfirst : 1 ≤ t.deepest := Thread.deepest_mono_of_run hrun
      have hlast : t.deepest ≤ bound := Thread.deepest_le_of_run (max_le (Nat.zero_le bound) hroom) hrun
      refine ⟨hfirst, hlast, fun bound' fuel' hle => ?_⟩
      have henter' := enter_of_ok henter bound'
      by_cases hnone : bound' ≤ 0
      · rw [if_pos hnone] at henter'
        refine ⟨fun hfits => absurd (hfirst.trans hfits) (by omega), fun _ => ?_⟩
        rw [execute_of_refused henter']
      · rw [if_neg hnone] at henter'
        have hstart : ((⟨Meter.deeper {} name, fr, []⟩ : Thread).meter.deepest) ≤ bound' :=
          max_le (Nat.zero_le bound') (Nat.not_le.1 hnone)
        obtain ⟨hfits, hexceeds⟩ := Thread.run_threshold hstart hrun
        refine ⟨fun hdeepest => ?_, fun hlt => ?_⟩
        · exact execute_of_run henter' (Thread.run_of_le_fuel hle (hfits hdeepest))
        · obtain ⟨t', hrun'⟩ := hexceeds hlt
          rw [execute_of_run henter' (Thread.run_of_le_fuel hle hrun')]
  · have hr : Unspent (.error e : Except Fault Value) := fun he => hfuel (Except.error.inj he)
    obtain ⟨e', henter, he, rfl⟩ | ⟨fr, t, henter, hrun, rfl⟩ := execute_cases hr h
    · obtain rfl := Except.error.inj he
      exact execute_of_refused (enter_of_error hbound hover henter)
    · have hroom : 0 < bound := (lt_of_enter henter).1
      have henter' := enter_of_ok henter bound'
      rw [if_neg (show ¬ bound' ≤ 0 by omega)] at henter'
      have hrun' := Thread.run_of_le_bound hbound (fun b hb => hover b (Except.error.inj hb)) hrun
      exact execute_of_run henter' (Thread.run_of_le_fuel hle hrun')

end Execute

/-! ### A recursion -/

/-- Counts its argument down to zero, by calling itself. -/
def descending : Function where
  name := "descending"
  params := [⟨"n", .i64⟩]
  ret := .i64
  insts := #[⟨"done", .i1, .icmp .eq (.arg 0) (.int 0)⟩, ⟨"less", .i64, .binary .sub (.arg 0) (.int 1)⟩,
    ⟨"rest", .i64, .call "descending" [.inst 1]⟩, ⟨"sum", .i64, .binary .add (.inst 2) (.arg 0)⟩]
  blocks := #[⟨"entry", [0], some (.condBr (.inst 0) 1 2)⟩, ⟨"stop", [], some (.ret (.int 0))⟩,
    ⟨"again", [1, 2, 3], some (.ret (.inst 3))⟩]
  layout := [0, 1, 2]

def descendingModule : Ir.Module where
  name := "m"
  functions := [descending]
  distinct := by decide

/-- Three calls within the first one take a bound of four.  A call without arguments is refused for want of
them before it is seen that a bound of zero leaves no room. -/
theorem execute_threshold_descending :
    let run (bound : Nat) (args : List Value) :=
      ({ maxDepth := bound, fuel := 99 } : Machine).execute descendingModule "descending" args
    ∃ mc, run 9 [.int 3] = (.ok (.int 6), mc) ∧ mc.meter.deepest = 4 ∧
      run 4 [.int 3] = (.ok (.int 6), { maxDepth := 4, fuel := 99, meter := mc.meter }) ∧
      (run 3 [.int 3]).1 = .error (.stackOverflow 3) ∧
      (run 0 []).1 = .error (.arityMismatch "descending" 1 0) ∧
      (run 7 []).1 = .error (.arityMismatch "descending" 1 0) := by
  intro run
  have hvalue : run 9 [.int 3] = (.ok (.int 6),
      { maxDepth := 9, fuel := 99, meter := { deepest := 4, steps := 13 } }) := by decide +kernel
  have hfault : run 0 [] = (.error (.arityMismatch "descending" 1 0), { maxDepth := 0, fuel := 99 }) := by
    decide +kernel
  obtain ⟨-, -, hbounds⟩ := (execute_threshold descendingModule "descending" [.int 3] 9 99).1 _ _ hvalue
  have hgreater := (execute_threshold descendingModule "descending" [] 0 99).2 _ _ hfault nofun nofun 7 99
    (Nat.zero_le 7) le_rfl
  refine ⟨_, hvalue, rfl, (hbounds 4 99 le_rfl).1 le_rfl, (hbounds 3 99 le_rfl).2 (by decide), ?_, ?_⟩
  · rw [hfault]
  · exact congrArg Prod.fst hgreater

end Machine

end ScalarLang
