import ScalarLang.Ir.Module
import ScalarLang.Machine.Frame

/-!
# Running functions

A machine runs functions of a module on a stack of frames: a call pushes a frame, a return pops one
and goes on in the frame below.  The height of the stack is bounded, and a machine counts what it
does.

* `Machine.Meter` — the running function, the height of the stack now and at most, and the steps.
* `Machine.enter` — the checks of a call, in their order: the callee, the number and types of its
  arguments, and the height of the stack.
* `Machine.Thread.step` — one step of the topmost frame.
* `Machine.Thread.run` — steps until the first frame returns; `none` if `fuel` steps were too few.
* `Machine.execute` — runs a function and settles the counters.
-/

namespace ScalarLang

namespace Machine

open Ir

/-- What a machine counts.  A step is an instruction that was performed; a call counts when it
returns. -/
structure Meter where
  current? : Option String := none
  depth : Nat := 0
  deepest : Nat := 0
  steps : Nat := 0
deriving DecidableEq, Repr, Inhabited

/-- Counts one step. -/
def Meter.tick (t : Meter) : Meter := { t with steps := t.steps + 1 }

/-- Checks arguments against the parameters of `function`. -/
def checkArgs (function : String) : List Ir.Param → List Value → Except Fault Unit
  | p :: params, v :: args =>
    if p.ty = v.ty then checkArgs function params args
    else .error (.wrongArgument p.name function p.ty v.ty)
  | _, _ => .ok ()

/-- The frame of a call and the counters with it on the stack. -/
def enter (m : Module) (bound : Nat) (t : Meter) (name : String) (args : List Value) :
    Except Fault (Frame × Meter) :=
  match m.get? name with
  | none => .error (.functionNotFound name)
  | some f =>
    if f.isDeclaration then .error (.notDefined name)
    else if f.params.length ≠ args.length then
      .error (.arityMismatch name f.params.length args.length)
    else do
      checkArgs name f.params args
      if bound ≤ t.depth then .error (.stackOverflow bound)
      else
        let frame ← Frame.start f args
        return (frame, { t with
          current? := some name, depth := t.depth + 1, deepest := max t.deepest (t.depth + 1) })

/-- A run under way: the topmost frame and those below it, which wait for a result. -/
structure Thread where
  meter : Meter
  top : Frame
  callers : List Frame := []
deriving DecidableEq, Repr, Inhabited

/-- What a step of a run leads to. -/
inductive Progress where
  | running (thread : Thread)
  | ended (result : Except Fault Value) (meter : Meter)

/-- Hands the result of the topmost frame down. -/
def Thread.handDown (t : Meter) (v : Value) : List Frame → Progress
  | [] => .ended (.ok v) { t with depth := t.depth - 1 }
  | caller :: callers =>
    let t := { t with depth := t.depth - 1 }
    match caller.resume v with
    | .error e => .ended (.error e) t
    | .ok caller =>
      .running ⟨{ t.tick with current? := some caller.function.name }, caller, callers⟩

/-- One step of the topmost frame. -/
def Thread.step (m : Module) (bound : Nat) : Thread → Progress
  | ⟨t, top, callers⟩ =>
    match top.step with
    | .error e => .ended (.error e) t
    | .ok (.computed top) => .running ⟨t.tick, top, callers⟩
    | .ok (.jumped top) => .running ⟨t, top, callers⟩
    | .ok (.returned v) => Thread.handDown t v callers
    | .ok (.call callee args) =>
      match enter m bound t callee args with
      | .error e => .ended (.error e) t
      | .ok (frame, t) => .running ⟨t, frame, top :: callers⟩

/-- Steps until the run ends, for at most `fuel` steps. -/
def Thread.run (m : Module) (bound : Nat) : Nat → Thread → Option (Except Fault Value × Meter)
  | 0, _ => none
  | fuel + 1, thread =>
    match thread.step m bound with
    | .running thread => run m bound fuel thread
    | .ended result meter => some (result, meter)

end Machine

/-- A machine: its bounds, and what it has counted.  `fuel` bounds a single run; a run of functions
that were compiled from source text ends anyway. -/
structure Machine where
  maxDepth : Nat := 1024
  fuel : Nat := 0x4000000000000000
  meter : Machine.Meter := {}
deriving DecidableEq, Repr, Inhabited

namespace Machine

/-- Forgets what was counted. -/
def reset (mc : Machine) : Machine := { mc with meter := {} }

/-- The machine after a run: whatever frames a fault has left behind are gone. -/
def settle (mc : Machine) (t : Meter) : Machine :=
  { mc with meter := { t with current? := mc.meter.current?, depth := mc.meter.depth } }

/-- Runs a function. -/
def execute (mc : Machine) (m : Ir.Module) (name : String) (args : List Value) :
    Except Fault Value × Machine :=
  match enter m mc.maxDepth mc.meter name args with
  | .error e => (.error e, mc)
  | .ok (frame, t) =>
    match Thread.run m mc.maxDepth mc.fuel ⟨t, frame, []⟩ with
    | some (result, t) => (result, mc.settle t)
    | none => (.error .outOfFuel, mc)

end Machine

end ScalarLang
