import ScalarLang.Proofs.Runs

/-!
# Faults that are not want of fuel

Fuel bounds a run from outside.  Nothing that a machine does in a run looks at it, so no step of a run
fails for want of it: whoever gets that fault can give more fuel, and whoever gets another one has got
the answer.

* `Machine.Unspent` — a computation that does not fail for want of fuel.
* `Machine.Frame.unspent_step`, `Machine.unspent_enter` — a step of a frame, and a call.
* `Machine.Thread.unspent_of_ended` — the end of a run.
-/

namespace ScalarLang

namespace Machine

open Ir

/-- A computation that does not fail for want of fuel, whether it fails or not. -/
def Unspent {α : Type} (x : Except Fault α) : Prop := x ≠ .error .outOfFuel

section Unspent

variable {α β : Type}

theorem Unspent.ok (a : α) : Unspent (.ok a : Except Fault α) := nofun

theorem Unspent.error {e : Fault} (h : Unspent (.error e : Except Fault α)) :
    Unspent (.error e : Except Fault β) := by
  intro he
  cases he
  exact h rfl

theorem Unspent.bind {x : Except Fault α} {f : α → Except Fault β} (hx : Unspent x)
    (hf : ∀ a, Unspent (f a)) : Unspent (x >>= f) := by
  intro h
  obtain hx' | ⟨a, -, ha⟩ := bind_eq_error_iff.1 h
  · exact hx hx'
  · exact hf a ha

theorem Unspent.mapM {f : α → Except Fault β} (hf : ∀ a, Unspent (f a)) (l : List α) :
    Unspent (l.mapM f) := by
  induction l with
  | nil => exact .ok []
  | cons a l ih =>
    rw [List.mapM_cons]
    exact (hf a).bind fun b => ih.bind fun bs => .ok (b :: bs)

theorem unspent_expectInt (v : Value) : Unspent (expectInt v) := by
  cases v <;> exact nofun

theorem unspent_expectDouble (v : Value) : Unspent (expectDouble v) := by
  cases v <;> exact nofun

theorem unspent_expectBool (v : Value) : Unspent (expectBool v) := by
  cases v <;> exact nofun

theorem unspent_arith (code : Arith) (a b : Value) : Unspent (arith code a b) := by
  have hint : ∀ op, Unspent (intArith op a b) := fun op =>
    (unspent_expectInt a).bind fun x => (unspent_expectInt b).bind fun y => .ok _
  have hdouble : ∀ op, Unspent (doubleArith op a b) := fun op =>
    (unspent_expectDouble a).bind fun x => (unspent_expectDouble b).bind fun y => .ok _
  cases code with
  | add => exact hint _
  | sub => exact hint _
  | mul => exact hint _
  | sdiv =>
    refine (unspent_expectInt a).bind fun x => (unspent_expectInt b).bind fun y => ?_
    split
    · exact nofun
    · exact .ok _
  | fadd => exact hdouble _
  | fsub => exact hdouble _
  | fmul => exact hdouble _
  | fdiv => exact hdouble _

namespace Frame

variable (fr : Frame)

theorem unspent_get (v : Operand) : Unspent (fr.get v) := by
  cases v <;> simp only [get] <;> (try split) <;> rintro ⟨⟩

theorem unspent_perform (i : Inst) : Unspent (fr.perform i) := by
  unfold perform
  split
  · next code lhs rhs _ =>
    exact (fr.unspent_get lhs).bind fun a => (fr.unspent_get rhs).bind fun b =>
      (unspent_arith code a b).bind fun v => .ok _
  · next pred lhs rhs _ =>
    exact (fr.unspent_get lhs).bind fun a => (unspent_expectInt a).bind fun x =>
      (fr.unspent_get rhs).bind fun b => (unspent_expectInt b).bind fun y => .ok _
  · next pred lhs rhs _ =>
    exact (fr.unspent_get lhs).bind fun a => (unspent_expectDouble a).bind fun x =>
      (fr.unspent_get rhs).bind fun b => (unspent_expectDouble b).bind fun y => .ok _
  · next v _ => exact (fr.unspent_get v).bind fun a => (unspent_expectBool a).bind fun bit => .ok _
  · next v _ => exact (fr.unspent_get v).bind fun a => (unspent_expectBool a).bind fun bit => .ok _
  · next callee args _ => exact (Unspent.mapM fr.unspent_get args).bind fun values => .ok _
  · next arms _ =>
    refine Unspent.bind ?_ fun v => .ok _
    unfold incoming
    split
    · exact fr.unspent_get _
    · exact nofun

theorem unspent_follow (t : Terminator) : Unspent (fr.follow t) := by
  cases t with
  | ret v => exact (fr.unspent_get v).bind fun a => .ok _
  | br target => exact .ok _
  | condBr cond onTrue onFalse =>
    exact (fr.unspent_get cond).bind fun a => (unspent_expectBool a).bind fun taken => .ok _

theorem unspent_step : Unspent fr.step := by
  unfold step
  split
  · exact nofun
  · split
    · split
      · exact nofun
      · next i _ =>
        refine (fr.unspent_perform i).bind fun action => ?_
        cases action <;> exact .ok _
    · split
      · exact fr.unspent_follow _
      · exact nofun

theorem unspent_resume (v : Value) : Unspent (fr.resume v) := by
  unfold resume
  split
  · exact .ok _
  · exact nofun

end Frame

theorem unspent_checkArgs (function : String) (params : List Ir.Param) (args : List Value) :
    Unspent (checkArgs function params args) := by
  induction params generalizing args with
  | nil => exact .ok ()
  | cons p params ih =>
    cases args with
    | nil => exact .ok ()
    | cons v args =>
      rw [checkArgs]
      split
      · exact ih args
      · rintro ⟨⟩

theorem unspent_enter (m : Ir.Module) (bound : Nat) (t : Meter) (name : String) (args : List Value) :
    Unspent (enter m bound t name args) := by
  unfold enter
  split
  · exact nofun
  · next f _ =>
    split
    · exact nofun
    · split
      · exact nofun
      · refine (unspent_checkArgs name f.params args).bind fun _ => ?_
        split
        · exact nofun
        · refine Unspent.bind ?_ fun fr => .ok _
          unfold Frame.start
          split
          · exact .ok _
          · exact nofun

theorem Thread.unspent_of_ended {m : Ir.Module} {bound : Nat} {a : Thread} {r : Except Fault Value}
    {t : Meter} (h : a.step m bound = .ended r t) : Unspent r := by
  obtain ⟨e, hs, rfl, -⟩ | ⟨v, -, -, rfl, -⟩ | ⟨v, caller, callers, e, -, -, hr, rfl, -⟩ |
    ⟨callee, args, e, -, he, rfl, -⟩ := ended_cases h
  · have hstep := a.top.unspent_step
    rw [hs] at hstep
    exact hstep.error
  · exact .ok v
  · have hresume := caller.unspent_resume v
    rw [hr] at hresume
    exact hresume.error
  · have henter := unspent_enter m bound a.meter callee args
    rw [he] at henter
    exact henter.error

end Unspent

end Machine

end ScalarLang
