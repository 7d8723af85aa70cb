import ScalarLang.Proofs.Closed
import ScalarLang.Proofs.Correctness
import ScalarLang.Proofs.Counting
import ScalarLang.Proofs.Progress
import ScalarLang.Proofs.TypeSafety

/-!
# Evaluation does not influence compilation

A compiler with a machine goes through a text in step with one without: both find the same units, read
the same definitions and leave the same module behind.  The outcomes differ only where an expression was
compiled, which on the machine gives an integer or a fault at the place of the expression.

* `Machine.Alike`, `Machine.execute_fst_congr` — what a machine has counted has no effect on results.
* `Session.attach` — a session that evaluates on a machine.
* `Session.Evaluates` — the outcome of a unit without a machine and its outcome on one.
* `Session.Goes.attach`, `Session.Run.attach` — units and runs go in step.
* `Compiler.evaluation_unnoticed` — and so do compilers, text after text.
* `Compiler.run_progress` — every text is gone through, and with fuel enough no run is cut off.
-/

namespace ScalarLang

namespace Machine

open Ir

/-! ### What a machine has counted -/

section Counting

variable {m : Ir.Module} {bound : Nat} {name : String} {args : List Value}

/-- Of what has been counted, the checks of a call see the height of the stack only. -/
theorem enter_eq_map (m : Ir.Module) (bound : Nat) (t : Meter) (name : String) (args : List Value) :
    enter m bound t name args =
      (enter m bound { depth := t.depth } name args).map fun r => (r.1, t.within name) := by
  unfold enter
  split
  · rfl
  · next f _ =>
    split
    · rfl
    · split
      · rfl
      · cases checkArgs name f.params args with
        | error e => rfl
        | ok _ =>
          show (if bound ≤ t.depth then _ else _) = Except.map _ (if bound ≤ t.depth then _ else _)
          split
          · rfl
          · cases Frame.start f args <;> rfl

/-- Runs that stand at the same point with a stack of the same height. -/
structure Thread.Alike (a b : Thread) : Prop where
  top : a.top = b.top
  callers : a.callers = b.callers
  depth : a.meter.depth = b.meter.depth

/-- What a step leads to, whatever has been counted. -/
inductive Progress.Alike : Progress → Progress → Prop
  | running {a b : Thread} (h : a.Alike b) : Alike (.running a) (.running b)
  | ended (result : Except Fault Value) (t u : Meter) : Alike (.ended result t) (.ended result u)

/-- Steps keep the heights of two stacks equal. -/
theorem Meter.kept_depth : Meter.Kept fun t u => t.depth = u.depth where
  depth h := h
  tick h := h
  deeper _ h := congrArg Nat.succ h
  resumed _ h := congrArg (· - 1) h
  shallower h := congrArg (· - 1) h

theorem Thread.Alike.step {a b : Thread} (h : a.Alike b) :
    Progress.Alike (a.step m bound) (b.step m bound) := by
  have hrelated : a.Related (fun t u => t.depth = u.depth) b := ⟨h.top, h.callers, h.depth⟩
  have hstep : Progress.Related _ (a.step m bound) (b.step m bound) := hrelated.step Meter.kept_depth
  generalize a.step m bound = p at hstep ⊢
  generalize b.step m bound = q at hstep ⊢
  cases hstep with
  | running h => exact .running ⟨h.top, h.callers, h.meter⟩
  | ended r _ => exact .ended r _ _

/-- Runs from the same point end with the same result. -/
theorem Thread.Alike.run {a b : Thread} (h : a.Alike b) (m : Ir.Module) (bound fuel : Nat) :
    (a.run m bound fuel).map Prod.fst = (b.run m bound fuel).map Prod.fst := by
  induction fuel generalizing a b with
  | zero => rfl
  | succ fuel ih =>
    rw [Thread.run, Thread.run]
    generalize ha : a.step m bound = pa
    generalize hb : b.step m bound = pb
    have hstep : Progress.Alike (a.step m bound) (b.step m bound) := h.step
    rw [ha, hb] at hstep
    cases hstep with
    | running h => exact ih h
    | ended result t u => rfl

/-- Machines with the same bounds and the same height of the stack, whatever they have counted. -/
structure Alike (a b : Machine) : Prop where
  maxDepth : a.maxDepth = b.maxDepth
  fuel : a.fuel = b.fuel
  depth : a.meter.depth = b.meter.depth

theorem Alike.refl (mc : Machine) : mc.Alike mc := ⟨rfl, rfl, rfl⟩

theorem Alike.trans {a b c : Machine} (hab : a.Alike b) (hbc : b.Alike c) : a.Alike c :=
  ⟨hab.maxDepth.trans hbc.maxDepth, hab.fuel.trans hbc.fuel, hab.depth.trans hbc.depth⟩

/-- A run leaves nothing on the stack. -/
theorem execute_snd_alike (mc : Machine) (m : Ir.Module) (name : String) (args : List Value) :
    (mc.execute m name args).2.Alike mc := by
  unfold execute
  split
  · exact .refl mc
  · split
    · exact ⟨rfl, rfl, rfl⟩
    · exact .refl mc

/-- **What a machine has counted has no effect on results.** -/
theorem execute_fst_congr {a b : Machine} (h : a.Alike b) (m : Ir.Module) (name : String)
    (args : List Value) : (a.execute m name args).1 = (b.execute m name args).1 := by
  unfold execute
  rw [enter_eq_map m a.maxDepth a.meter, enter_eq_map m b.maxDepth b.meter, h.maxDepth, h.depth, h.fuel]
  cases enter m b.maxDepth { depth := b.meter.depth } name args with
  | error e => rfl
  | ok entered =>
    have halike : Thread.Alike ⟨a.meter.within name, entered.1, []⟩ ⟨b.meter.within name, entered.1, []⟩ :=
      ⟨rfl, rfl, congrArg Nat.succ h.depth⟩
    have hrun := halike.run m b.maxDepth b.fuel
    simp only [Except.map]
    cases ha : Thread.run m b.maxDepth b.fuel ⟨a.meter.within name, entered.1, []⟩ <;>
      cases hb : Thread.run m b.maxDepth b.fuel ⟨b.meter.within name, entered.1, []⟩ <;>
        simp_all

/-- With fuel enough, no machine of a given height is cut off. -/
theorem execute_ne_outOfFuel {ds : List Definition} {f : Function} (hm : m.Implements ds)
    (hf : f ∈ m.functions) (bound : Nat) (hargs : args.map Value.ty = f.params.map Ir.Param.ty) :
    ∃ n, ∀ mc : Machine, mc.maxDepth = bound → mc.meter.depth = 0 → n ≤ mc.fuel →
      (mc.execute m f.name args).1 ≠ .error .outOfFuel := by
  obtain ⟨n, hn⟩ := execute_eq_invoke hm hf bound hargs
  refine ⟨n, fun mc hbound hdepth hfuel => ?_⟩
  have hfresh : mc.Alike { maxDepth := bound, fuel := mc.fuel } := ⟨hbound, rfl, hdepth⟩
  rw [execute_fst_congr hfresh, hn mc.fuel hfuel]
  exact invoke_ne_outOfFuel hm bound bound f.name args

end Counting

end Machine

/-! ### What an expression comes to -/

/-- The compiler, with a machine to evaluate on. -/
def Compiler.attach (c : Compiler) (mc : Machine) : Compiler := { c with machine? := some mc }

/-- An expression that is read on its own has the place of its body. -/
theorem Program.proto_of_topLevel {table : PrecedenceTable} {sigs : Signatures} {c c' : Cursor}
    {d : Definition} (h : topLevel table sigs c = .ok d c') :
    d.proto = Prototype.anonymous d.body.span := by
  obtain ⟨body, c₁, -, h⟩ := run_bind_eq_ok_iff.1 h
  obtain ⟨_, _, -, h⟩ := run_bind_eq_ok_iff.1 h
  obtain ⟨rfl, -⟩ := run_pure_eq_ok_iff.1 h
  rfl

namespace Session

variable {s s' t : Session} {o : Outcome} {ds : List Definition}
  {units : List (Session × Outcome)}

/-- The function of an expression gives an integer if it gives anything, and with fuel enough it is not
cut off. -/
theorem Reached.execute_expression (hs : s.Reached ds) {c c' : Cursor} {d : Definition}
    {f : Ir.Function} {m : Ir.Module} (hk : c.current.kind ≠ .kwDef) (hr : s.reads c = .ok d c')
    (hg : s.compiler.module.generate d = (.ok f, m)) (bound : Nat) :
    (∀ (mc : Machine) v, (mc.execute m Prototype.anonymousName []).1 = .ok v → ∃ i, v = .int i) ∧
      ∃ n, ∀ mc : Machine, mc.maxDepth = bound → mc.meter.depth = 0 → n ≤ mc.fuel →
        (mc.execute m Prototype.anonymousName []).1 ≠ .error .outOfFuel := by
  rw [reads_of_ne_kwDef hk] at hr
  obtain ⟨haccepts, hname⟩ := Ir.Module.accepts_of_topLevel hr hs.sound.absent
  obtain ⟨f', m', m₁, hg', -, hfunctions, himp, -⟩ := Ir.Module.generate_typed haccepts.typed haccepts.new
  obtain ⟨hf, rfl⟩ := Prod.mk.inj (hg.symm.trans hg')
  obtain rfl := Except.ok.inj hf
  have hmem : f ∈ m.functions := by
    rw [hfunctions]
    exact List.mem_append_right _ (List.mem_singleton_self f)
  have hproto := Program.proto_of_topLevel hr
  have hfname : f.name = Prototype.anonymousName := himp.name.trans hname
  have hargs : [].map Machine.Value.ty = f.params.map Ir.Param.ty := by
    refine (Machine.fits_iff himp.signature).1 ?_
    rw [hproto]
    rfl
  have hret : f.ret = .i64 := by
    have hret := himp.signature.ret
    rw [hproto] at hret
    exact (Option.some.inj hret).symm
  refine ⟨fun mc v hv => ?_, ?_⟩
  · have hverified := haccepts.verified hg hs.verified
    have hall : Machine.AllVerified m :=
      fun g hg _ => Ir.Function.verify_eq_ok_iff.2 (hverified g hg)
    rw [← hfname] at hv
    have hmeets := Machine.execute_meets hall hmem hargs mc (by rw [hv]; exact fun h => by cases h)
    rw [hv] at hmeets
    have hty : v.ty = .i64 := hret ▸ hmeets
    cases v with
    | int i => exact ⟨i, rfl⟩
    | bool b => cases hty
    | double x => cases hty
  · obtain ⟨f', m', hg', -, -, -, himplements⟩ := haccepts.generate
    obtain ⟨-, rfl⟩ := Prod.mk.inj (hg.symm.trans hg')
    rw [← hfname]
    exact Machine.execute_ne_outOfFuel (himplements ds hs.sound.implements) hmem bound hargs

/-! ### Units in step -/

/-- The session, with a machine to evaluate on. -/
def attach (s : Session) (mc : Machine) : Session := { s with compiler := s.compiler.attach mc }

/-- The outcome of a unit without a machine and its outcome on one.  They are the same but for
expressions.  On the machine an expression comes to an integer, or to one of the possible faults at the
place of the expression. -/
inductive Evaluates (s : Session) (possible : Machine.Fault → Prop) : Outcome → Outcome → Prop
  | definition (name listing : String) :
      Evaluates s possible (.definition name listing) (.definition name listing)
  | failure {d : Diagnostic} (h : d.category ∈ [.lexical, .grammar, .type]) :
      Evaluates s possible (.failure d) (.failure d)
  | value (listing : String) (i : Int64) :
      Evaluates s possible (.expression listing none) (.expression listing (some (.int i)))
  | fault (listing : String) {d : Definition} {fault : Machine.Fault} (hr : s.read? = some d)
      (hf : possible fault) :
      Evaluates s possible (.expression listing none) (.failure
        { category := .runtime, message := fault.message, span? := some d.body.span })

theorem Evaluates.mono {p q : Machine.Fault → Prop} (hpq : ∀ fault, p fault → q fault)
    {o' : Outcome} (h : s.Evaluates p o o') : s.Evaluates q o o' := by
  cases h with
  | definition name listing => exact .definition name listing
  | failure h => exact .failure h
  | value listing i => exact .value listing i
  | fault listing hr hf => exact .fault listing hr (hpq _ hf)

theorem category_mem (e : InputError) :
    (CompileError.input e).toDiagnostic.category ∈ [.lexical, .grammar, .type] := by
  cases e <;> simp [CompileError.toDiagnostic, CompileError.category]

/-- A unit does not take a machine. -/
theorem Goes.machine?_eq_none (h : s.Goes o s') (hs : s.compiler.machine? = none) :
    s'.compiler.machine? = none := by
  cases h with
  | malformed _ => exact hs
  | unreadable _ _ => exact hs
  | refused _ _ _ => exact hs
  | defined _ _ _ _ => exact hs
  | evaluated _ _ _ _ he =>
    rw [Compiler.evaluateIn, hs] at he
    cases he
    rfl
  | faulted _ _ _ _ he =>
    rw [Compiler.evaluateIn, hs] at he
    cases he

/-- **A unit goes on a machine as it goes without one.** -/
theorem Goes.attach (h : s.Goes o s') (hs : s.Reached ds) (hplain : s.compiler.machine? = none)
    (bound : Nat) :
    ∃ n, ∀ mc : Machine, mc.maxDepth = bound → mc.meter.depth = 0 →
      ∃ o' mc', (s.attach mc).Goes o' (s'.attach mc') ∧ mc'.Alike mc ∧
        s.Evaluates (fun fault => n ≤ mc.fuel → fault ≠ .outOfFuel) o o' := by
  cases h with
  | malformed h =>
    exact ⟨0, fun mc _ _ => ⟨_, mc, .malformed h, .refl mc, .failure (category_mem _)⟩⟩
  | unreadable h hr =>
    exact ⟨0, fun mc _ _ => ⟨_, mc, .unreadable h hr, .refl mc, .failure (category_mem _)⟩⟩
  | @refused c c' d e m h hr hg =>
    refine ⟨0, fun mc _ _ => ⟨_, mc, .refused h hr hg, .refl mc, .failure ?_⟩⟩
    rcases hs.sound.generate_cases hr with hg' | haccepts
    · obtain ⟨he, -⟩ := Prod.mk.inj (hg.symm.trans hg')
      rw [Except.error.inj he]
      simp [CompileError.toDiagnostic, CompileError.category]
    · obtain ⟨f, m', hg', -⟩ := haccepts.generate
      cases hg.symm.trans hg'
  | defined h hk hr hg =>
    exact ⟨0, fun mc _ _ => ⟨_, mc, .defined h hk hr hg, .refl mc, .definition ..⟩⟩
  | @evaluated c c' d f m value? machine? h hk hr hg he =>
    rw [Compiler.evaluateIn, hplain] at he
    cases he
    obtain ⟨hint, n, hn⟩ := hs.execute_expression hk hr hg bound
    refine ⟨n, fun mc hbound hdepth => ?_⟩
    have halike := mc.execute_snd_alike m Prototype.anonymousName []
    have hin : (s.attach mc).compiler.evaluateIn m =
        ((mc.execute m Prototype.anonymousName []).1.map some,
          some (mc.execute m Prototype.anonymousName []).2) := rfl
    cases hx : (mc.execute m Prototype.anonymousName []).1 with
    | ok v =>
      obtain ⟨i, rfl⟩ := hint mc v hx
      rw [hx] at hin
      exact ⟨_, _, .evaluated h hk hr hg hin, halike, .value ..⟩
    | error fault =>
      rw [hx] at hin
      refine ⟨_, _, .faulted h hk hr hg hin, halike, ?_⟩
      rw [reads_of_ne_kwDef hk] at hr
      have hspan : d.proto.span = d.body.span := by rw [Program.proto_of_topLevel hr]; rfl
      rw [hspan]
      refine .fault _ (read?_of_reads_ok h (by rw [reads_of_ne_kwDef hk]; exact hr)) fun hfuel heq => ?_
      exact hn mc hbound hdepth hfuel (by rw [hx, heq])
  | faulted _ _ _ _ he =>
    rw [Compiler.evaluateIn, hplain] at he
    cases he

theorem Evaluates.failsBy {possible : Machine.Fault → Prop} {o' : Outcome}
    (h : s.Evaluates possible o o') : o.FailsBy (fun _ => False) ∧ o'.FailsBy possible := by
  cases h with
  | definition name listing => exact ⟨.of_isSuccess rfl, .of_isSuccess rfl⟩
  | @failure d hmem =>
    -- what is reported without a machine is none of its faults
    have hne : d.category ≠ .runtime := by
      intro h
      rw [h] at hmem
      simp at hmem
    constructor <;>
    · rintro _ ⟨⟩ h
      exact absurd h hne
  | value listing i => exact ⟨.of_isSuccess rfl, .of_isSuccess rfl⟩
  | @fault listing d fault hr hf =>
    refine ⟨.of_isSuccess rfl, ?_⟩
    rintro _ ⟨⟩ -
    exact ⟨fault, hf, rfl⟩

theorem failsBy_of_evaluates {possible : Machine.Fault → Prop} {outcomes : List Outcome}
    (h : List.Forall₂ (fun u o => Evaluates u.1 possible u.2 o) units outcomes) :
    (∀ o ∈ units.map Prod.snd, o.FailsBy fun _ => False) ∧ ∀ o ∈ outcomes, o.FailsBy possible := by
  induction h with
  | nil => simp
  | cons h _ ih =>
    exact ⟨List.forall_mem_cons.2 ⟨h.failsBy.1, ih.1⟩, List.forall_mem_cons.2 ⟨h.failsBy.2, ih.2⟩⟩

/-! ### Runs in step -/

/-- **A run goes on a machine as it goes without one**, and with fuel enough it is never cut off. -/
theorem Run.attach (h : s.Run units t) (hs : s.Reached ds) (hplain : s.compiler.machine? = none)
    (bound : Nat) :
    ∃ n, ∀ mc : Machine, mc.maxDepth = bound → mc.meter.depth = 0 →
      ∃ units' mc', (s.attach mc).Run units' (t.attach mc') ∧ mc'.Alike mc ∧
        List.Forall₂ (fun u u' =>
          u.1.Evaluates (fun fault => n ≤ mc.fuel → fault ≠ .outOfFuel) u.2 u'.2) units units' := by
  induction h generalizing ds with
  | @done s h =>
    have hend (mc : Machine) : (s.attach mc).next = none :=
      next_eq_none_iff.2 (next_eq_none_iff (s := s) |>.1 h)
    exact ⟨0, fun mc _ _ => ⟨[], mc, .done (hend mc), .refl mc, .nil⟩⟩
  | @unit s s' t o units h _ ih =>
    obtain ⟨events, hnext⟩ := h.next
    obtain ⟨n, hn⟩ := h.attach hs hplain bound
    obtain ⟨k, hk⟩ := ih (hs.unit hnext) (h.machine?_eq_none hplain)
    refine ⟨max n k, fun mc hbound hdepth => ?_⟩
    obtain ⟨o', mc₁, hgoes, halike, hevaluates⟩ := hn mc hbound hdepth
    obtain ⟨units', mc₂, hrun, halike', hall⟩ :=
      hk mc₁ (halike.maxDepth.trans hbound) (halike.depth.trans hdepth)
    refine ⟨_, mc₂, .unit hgoes hrun, halike'.trans halike, .cons (hevaluates.mono ?_) (hall.imp ?_)⟩
    · exact fun fault hfault hfuel => hfault (by omega)
    · rw [halike.fuel]
      exact fun u u' hu => hu.mono fun fault hfault hfuel => hfault (by omega)

end Session

/-! ### Texts in turn -/

namespace Compiler

variable {c : Compiler}

/-- The compiler behind texts that are compiled in turn. -/
def after (c : Compiler) (texts : List String) : Compiler :=
  texts.foldl (fun c text => (c.compile text).2) c

theorem Reached.after (h : c.Reached) (texts : List String) : (c.after texts).Reached := by
  induction texts generalizing c with
  | nil => exact h
  | cons text texts ih => exact ih (h.compile text)

/-- A text goes on a machine as it goes without one. -/
theorem Reached.compile_attach (h : c.Reached) (hplain : c.machine? = none) (bound : Nat)
    (text : String) :
    ∃ units t, (Session.start c text).Run units t ∧ c.outcomes text = units.map Prod.snd ∧
      (c.compile text).2.machine? = none ∧
      ∃ n, ∀ mc : Machine, mc.maxDepth = bound → mc.meter.depth = 0 →
        (∃ mc', ((c.attach mc).compile text).2 = (c.compile text).2.attach mc' ∧ mc'.Alike mc) ∧
        List.Forall₂ (fun u o =>
          u.1.Evaluates (fun fault => n ≤ mc.fuel → fault ≠ .outOfFuel) u.2 o)
          units ((c.attach mc).outcomes text) := by
  obtain ⟨s, ds, hs, rfl⟩ := h
  obtain ⟨units, t, hrun, houtcomes, hcompiler⟩ := exists_run s.compiler text
  obtain ⟨n, hn⟩ := hrun.attach (hs.again text) hplain bound
  refine ⟨units, t, hrun, houtcomes, ?_, n, fun mc hbound hdepth => ?_⟩
  · rw [hcompiler]
    exact hrun.forall_end (fun s o s' hs h => h.machine?_eq_none hs) hplain
  · obtain ⟨units', mc', hrun', halike, hall⟩ := hn mc hbound hdepth
    obtain ⟨houtcomes', hcompiler'⟩ := compile_of_run (c := s.compiler.attach mc) hrun'
    refine ⟨⟨mc', ?_, halike⟩, ?_⟩
    · rw [hcompiler', hcompiler]
      rfl
    · rw [houtcomes', List.forall₂_map_right_iff]
      exact hall

/-- So do texts in turn. -/
theorem Reached.after_attach (h : c.Reached) (hplain : c.machine? = none) (texts : List String)
    (mc : Machine) (hdepth : mc.meter.depth = 0) :
    (c.after texts).machine? = none ∧
      ∃ mc', (c.attach mc).after texts = (c.after texts).attach mc' ∧ mc'.Alike mc := by
  induction texts generalizing c mc with
  | nil => exact ⟨hplain, mc, rfl, .refl mc⟩
  | cons text texts ih =>
    obtain ⟨units, t, -, -, hplain', n, hn⟩ := h.compile_attach hplain mc.maxDepth text
    obtain ⟨⟨mc₁, hcompiler, halike⟩, -⟩ := hn mc rfl hdepth
    obtain ⟨hnone, mc₂, hafter, halike'⟩ :=
      ih (h.compile text) hplain' mc₁ (halike.depth.trans hdepth)
    refine ⟨hnone, mc₂, ?_, halike'.trans halike⟩
    show ((c.attach mc).compile text).2.after texts = _
    rw [hcompiler]
    exact hafter

/-- Behind the same texts, a compiler that evaluates is the one that does not with a machine. -/
theorem after_withFuel (config : Config) (texts : List String) (fuel : Nat) :
    ((ofConfig config).after texts).machine? = none ∧
      ∃ mc : Machine, ((ofConfig config).withMachine.withFuel fuel).after texts =
        ((ofConfig config).after texts).attach mc ∧
        mc.Alike { maxDepth := config.maxCallDepth, fuel } :=
  (Reached.ofConfig config).after_attach rfl texts { maxDepth := config.maxCallDepth, fuel } rfl

/-- **Evaluation does not influence compilation.**  A compiler that evaluates and one that does not, which
have compiled the same texts, have the same module, and so they have behind any further text.  Unit by
unit, their outcomes are the same but for expressions, which come to an integer or to a fault at their
place; with fuel enough they are never cut off. -/
theorem evaluation_unnoticed (config : Config) (texts : List String) (text : String) :
    let plain := (ofConfig config).after texts
    ∃ units t, (Session.start plain text).Run units t ∧
      plain.outcomes text = units.map Prod.snd ∧
      ∃ n, ∀ fuel,
        let evaluating := ((ofConfig config).withMachine.withFuel fuel).after texts
        evaluating.module = plain.module ∧
          (evaluating.compile text).2.module = (plain.compile text).2.module ∧
          List.Forall₂ (fun u o =>
            u.1.Evaluates (fun fault => n ≤ fuel → fault ≠ .outOfFuel) u.2 o)
            units (evaluating.outcomes text) := by
  intro plain
  obtain ⟨units, t, hrun, houtcomes, -, n, hn⟩ := ((Reached.ofConfig config).after texts).compile_attach
    (after_withFuel config texts 0).1 config.maxCallDepth text
  refine ⟨units, t, hrun, houtcomes, n, fun fuel => ?_⟩
  intro evaluating
  obtain ⟨-, mc, heq, halike⟩ := after_withFuel config texts fuel
  have heq : evaluating = plain.attach mc := heq
  obtain ⟨⟨mc', hcompiler, -⟩, hall⟩ := hn mc halike.maxDepth halike.depth
  rw [heq]
  refine ⟨rfl, ?_, ?_⟩
  · rw [hcompiler]
    rfl
  · rw [halike.fuel] at hall
    exact hall

/-! ### Texts are gone through -/

/-- **Every text is gone through, whatever was compiled before it.**  Without a machine no unit fails when
it is run.  With one this may happen, but for some bound on the steps of single runs, and for all bounds
above it, no run is cut off. -/
theorem run_progress (config : Config) (texts : List String) (text : String) :
    ((ofConfig config).after texts).GoesThrough text (fun _ => False) ∧
      ∃ n, ∀ fuel, (((ofConfig config).withMachine.withFuel fuel).after texts).GoesThrough text
        fun fault => n ≤ fuel → fault ≠ .outOfFuel := by
  have hplain : ((ofConfig config).after texts).Reached := (Reached.ofConfig config).after texts
  obtain ⟨units, t, -, houtcomes, -, n, hn⟩ :=
    hplain.compile_attach (after_withFuel config texts 0).1 config.maxCallDepth text
  have hstep (fuel : Nat) : List.Forall₂ (fun u o =>
      u.1.Evaluates (fun fault => n ≤ fuel → fault ≠ .outOfFuel) u.2 o) units
      ((((ofConfig config).withMachine.withFuel fuel).after texts).outcomes text) := by
    obtain ⟨-, mc, heq, halike⟩ := after_withFuel config texts fuel
    obtain ⟨-, hall⟩ := hn mc halike.maxDepth halike.depth
    rw [halike.fuel] at hall
    rw [heq]
    exact hall
  refine ⟨hplain.goesThrough ?_, n, fun fuel => ?_⟩
  · rw [houtcomes]
    exact (Session.failsBy_of_evaluates (hstep 0)).1
  · exact ((Reached.withFuel config fuel).after texts).goesThrough
      (Session.failsBy_of_evaluates (hstep fuel)).2

/-- Units that end in every way but success: at a token that starts nothing, at malformed numbers, with a
fault, with a name that is taken, inside a call, for a name that means nothing, and at the end. -/
theorem run_progress_behind_failures :
    let texts := ["def int f(int n) n / 0"]
    let text := ") 1. f(1) ;; def int f() 1 f(1 2 g + 3. ; 2 +"
    (((ofConfig {}).withMachine.after texts).outcomes text).map Outcome.isSuccess =
        List.replicate 8 false ∧
      ((items text).filter fun item => !Lexer.isEnd item).length = 24 ∧
      ((ofConfig {}).after texts).GoesThrough text (fun _ => False) ∧
      ∃ n, ∀ fuel, (((ofConfig {}).withMachine.withFuel fuel).after texts).GoesThrough text
        fun fault => n ≤ fuel → fault ≠ .outOfFuel := by
  intro texts text
  exact ⟨by decide +kernel, by decide +kernel, run_progress {} texts text⟩

end Compiler

end ScalarLang
