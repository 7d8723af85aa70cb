import ScalarLang.Proofs.Sessions
import ScalarLang.Proofs.Simulation

/-!
# Compiled functions compute what their definitions mean

A call of a function takes the activation that its definition's meaning takes: the number of activations
that still fit goes down by one on both sides.  So by induction on that number calls go in step with
their meaning, and a run from the outside ends with the result that the definition means.

* `Machine.binds_env` — arguments are bound to the parameters of a definition.
* `Machine.body_follows` — the body of a function goes in step with that of its definition.
* `Machine.invoke_answers` — calls go in step with their meaning, however many activations fit.
* `Machine.execute_eq_invoke` — running a function gives what its definition means.
* `Session.Reached.compiled_runsLike` — so it is for all functions of all modules that compiling texts leads to.
-/

namespace ScalarLang

namespace Machine

open Ir

/-! ### Arguments -/

theorem lookup_zip {names : List String} {values : List Value} (hn : names.Nodup) {i : Nat}
    {name : String} {v : Value} (hname : names[i]? = some name) (hv : values[i]? = some v) :
    (names.zip values).lookup name = some v := by
  induction names generalizing values i with
  | nil => simp at hname
  | cons n names ih =>
    rw [List.nodup_cons] at hn
    cases values with
    | nil => simp at hv
    | cons w values =>
      rw [List.zip_cons_cons, List.lookup_cons]
      cases i with
      | zero =>
        obtain rfl : n = name := Option.some.inj hname
        obtain rfl : w = v := Option.some.inj hv
        rw [beq_self_eq_true]
      | succ i =>
        rw [List.getElem?_cons_succ] at hname hv
        have hne : (name == n) = false := by
          rw [beq_eq_false_iff_ne]
          intro heq
          exact hn.1 (heq ▸ List.mem_of_getElem? hname)
        rw [hne]
        exact ih hn.2 hname hv

theorem binds_env {d : Definition} (hn : (d.proto.params.map ScalarLang.Param.name).Nodup)
    {args : List Value} (hargs : Fits d.proto.signature args) :
    Binds d.proto.params args (d.env args) := by
  intro name num h
  obtain ⟨index, p, hindex, hp, hname, hty⟩ := exists_parameterIndex? h
  have hget := congrArg (fun l => l[index]?) hargs
  simp only [Prototype.signature, List.getElem?_map, hp, Option.map_some] at hget
  obtain ⟨w, hw, hwty⟩ := Option.map_eq_some_iff.1 hget.symm
  have hlookup : ((d.proto.params.map ScalarLang.Param.name).zip args).lookup name = some w := by
    refine lookup_zip hn ?_ hw
    rw [List.getElem?_map, hp, Option.map_some, hname]
  have henv : d.env args name = w := by
    rw [Definition.env, hlookup]
    rfl
  refine ⟨index, hindex, henv ▸ hw, ?_⟩
  rw [henv, ← hty]
  exact hwty.symm

/-! ### Bodies -/

section Bodies

variable {m m₁ : Ir.Module} {bound depth : Nat} {f : Function} {d : Definition} {args : List Value}
  {call : String → List Value → Except Fault Value}

/-- **The body of a function goes in step with the body of its definition**, if calls go in step with
their meaning.  At the end it returns the value. -/
theorem body_follows (h : f.Implements d m₁) (hcall : Answers m bound depth m₁.signature? call)
    (hargs : Fits d.proto.signature args) {t : Meter} (hdepth : t.depth = depth) (callers : List Frame) :
    ∃ fr, Frame.start f args = .ok fr ∧
      Follows m bound ⟨t, fr, callers⟩ (d.body.eval call (d.env args)) fun w th' =>
        th'.callers = callers ∧ th'.meter.depth = depth ∧ th'.top.step = .ok (.returned w) ∧
          Ty.ofNum? d.proto.ret = some w.ty := by
  obtain ⟨declaration, v, b, hbare, hparams, hv, hlow, rfl⟩ := h.code
  have hd := h.typed
  obtain ⟨ty, hty⟩ := Ty.exists_ofNum? hd.body.resolved
  have hp := hparams.mono (entry_extends hbare)
  obtain ⟨done, here, hcur, htidy⟩ := hlow.ready
  have hext := Builder.extends_terminate (.ret v) hcur (htidy.unfinished_rest here (by simp))
  -- the entry stays the first block
  have hentry : (b.terminate (.ret v)).function.entry? = some 0 := by
    obtain ⟨ids, hids, -⟩ := hlow.after.layout
    rw [Function.entry?, Builder.layout_terminate, hids, (entry_tidy (m := m₁) hbare).layout]
    rfl
  refine ⟨_, by rw [Frame.start, hentry], ?_⟩
  have hstands : Frame.Stands (b.terminate (.ret v)).function args (entryBuilder declaration)
      { function := (b.terminate (.ret v)).function, args
        values := Array.replicate (b.terminate (.ret v)).function.insts.size none, block := 0 } := by
    refine ⟨rfl, rfl, Array.size_replicate, by rw [entryBuilder_eq hbare]; rfl, ?_⟩
    rw [instsAt_entry hbare]
    rfl
  refine (lower_follows hcall (binds_env hd.names hargs) hd.body _ ty v b _ hty (entry_ready hbare) hp
    hv hext hstands hdepth).mono fun w th' hgives => ?_
  refine ⟨hgives.arrives.callers, hgives.arrives.depth.trans hdepth, ?_, ?_⟩
  · rw [hgives.arrives.stands.step_end hlow.ready (.refl _), Frame.follow, hgives.get]
    rfl
  · rw [← hd.ret, hty, hgives.ty]

/-- What is counted while a call goes on. -/
def Meter.within (t : Meter) (name : String) : Meter :=
  { t with current? := some name, depth := t.depth + 1, deepest := max t.deepest (t.depth + 1) }

/-- What the checks of a call of a compiled function amount to. -/
theorem enter_of_implements (h : f.Implements d m₁) {name : String} (hget : m.get? name = some f)
    (hargs : Fits d.proto.signature args) (bound : Nat) (t : Meter) :
    enter m bound t name args =
      if bound ≤ t.depth then .error (.stackOverflow bound)
      else (Frame.start f args).map fun fr => (fr, t.within name) := by
  have htys := (fits_iff h.signature).1 hargs
  have hlen : f.params.length = args.length := by
    simpa using congrArg List.length htys.symm
  rw [enter, hget]
  simp only [h.isDeclaration, hlen, checkArgs_of_map_ty htys, ne_eq, not_true_eq_false,
    Bool.false_eq_true, if_false]
  show (if bound ≤ t.depth then _ else _) = _
  split
  · rfl
  · cases Frame.start f args <;> rfl

end Bodies

/-! ### Calls -/

section Calls

variable {m : Ir.Module} {bound : Nat} {ds : List Definition} {f : Function} {name : String}

theorem find?_of_forall₂ {α β : Type} {R : α → β → Prop} {p : α → Bool} {q : β → Bool}
    (hpq : ∀ a b, R a b → p a = q b) {l : List α} {l' : List β} (h : List.Forall₂ R l l') {a : α}
    (ha : l.find? p = some a) : ∃ b, l'.find? q = some b ∧ R a b := by
  induction h with
  | nil => cases ha
  | @cons c d l l' hcd _ ih =>
    rw [List.find?_cons] at ha ⊢
    rw [← hpq c d hcd]
    cases hp : p c with
    | true =>
      rw [hp] at ha
      exact ⟨d, rfl, Option.some.inj ha ▸ hcd⟩
    | false =>
      rw [hp] at ha
      exact ih ha

/-- The function of a name came of the definition of that name. -/
theorem find?_of_get? (h : m.Implements ds) (hf : m.get? name = some f) :
    ∃ d, Program.find? ds name = some d ∧ ∃ m₁ : Ir.Module, f.Implements d m₁ ∧
      ∀ name s, m₁.signature? name = some s → m.signature? name = some s := by
  refine find?_of_forall₂ (fun g d hg => ?_) h hf
  obtain ⟨m₁, himp, -⟩ := hg
  rw [himp.name]

theorem Answers.mono {depth : Nat} {sigs sigs' : Signatures}
    {call : String → List Value → Except Fault Value} (h : Answers m bound depth sigs call)
    (hsigs : ∀ name s, sigs' name = some s → sigs name = some s) :
    Answers m bound depth sigs' call :=
  fun name sig ws th hsig => h name sig ws th (hsigs name sig hsig)

/-- **Calls go in step with their meaning.**  By induction on the number of activations that still fit;
the body of a function makes its calls with one less. -/
theorem invoke_answers (hm : m.Implements ds) (n : Nat) {depth : Nat} (hn : depth + n = bound) :
    Answers m bound depth m.signature? (Program.invoke ds bound n) := by
  induction n generalizing depth with
  | zero =>
    intro name sig ws th hsig hws hdepth hstep _
    obtain ⟨f, hf, hfsig⟩ := Module.signature?_eq_some_iff.1 hsig
    obtain ⟨d, -, m₁, himp, -⟩ := find?_of_get? hm hf
    obtain rfl := hfsig.unique himp.signature
    have henter := enter_of_implements himp hf hws bound th.meter
    rw [if_pos (by omega)] at henter
    exact .of_step (Thread.step_of_refused_call hstep henter)
  | succ n ih =>
    intro name sig ws th hsig hws hdepth hstep hresume
    obtain ⟨f, hf, hfsig⟩ := Module.signature?_eq_some_iff.1 hsig
    obtain ⟨d, hd, m₁, himp, hsigs⟩ := find?_of_get? hm hf
    obtain rfl := hfsig.unique himp.signature
    have henter := enter_of_implements himp hf hws bound th.meter
    obtain ⟨fr, hfr, hbody⟩ := body_follows himp ((ih (by omega)).mono hsigs) hws
      (t := th.meter.within name) (congrArg Nat.succ hdepth) (th.top :: th.callers)
    rw [if_neg (by omega), hfr] at henter
    rw [Program.invoke, hd]
    refine .of_reaches (.of_step (Thread.step_of_call hstep henter)) (hbody.goesOn fun w th₁ h => ?_)
    -- the result is handed down to the frame that waits for it
    obtain ⟨hcallers, hdepth₁, hreturn, hty⟩ := h
    obtain ⟨fr', hfr'⟩ := hresume w
    have hdown : Thread.handDown th₁.meter w th₁.callers = .running
        ⟨{ ({ th₁.meter with depth := th₁.meter.depth - 1 } : Meter).tick with
          current? := some fr'.function.name }, fr', th.callers⟩ := by
      rw [hcallers, Thread.handDown, hfr']
    refine .of_reaches (.of_step ((Thread.step_of_returned hreturn).trans hdown)) (.ok ⟨hfr', rfl, ?_, hty⟩)
    show th₁.meter.depth - 1 = th.meter.depth
    omega

/-- With fuel enough, a machine gives the result with which the run ends. -/
theorem execute_of_ends {bound : Nat} {args : List Value} {fr : Frame} {t : Meter}
    {result : Except Fault Value} (henter : enter m bound {} name args = .ok (fr, t))
    (h : Thread.Ends m bound ⟨t, fr, []⟩ result) :
    ∃ n, ∀ fuel, n ≤ fuel →
      (({ maxDepth := bound, fuel } : Machine).execute m name args).1 = result := by
  obtain ⟨n, t', hrun⟩ := h
  refine ⟨n, fun fuel hfuel => ?_⟩
  obtain ⟨rest, rfl⟩ := Nat.exists_eq_add_of_le' hfuel
  rw [execute]
  simp only [henter, hrun rest]

/-- **Running a function gives what its definition means.** -/
theorem execute_eq_invoke (hm : m.Implements ds) (hf : f ∈ m.functions) (bound : Nat)
    {args : List Value} (hargs : args.map Value.ty = f.params.map Ir.Param.ty) :
    ∃ n, ∀ fuel, n ≤ fuel → (({ maxDepth := bound, fuel } : Machine).execute m f.name args).1 =
      Program.invoke ds bound bound f.name args := by
  have hget := Module.get?_eq_some_iff.2 ⟨hf, rfl⟩
  obtain ⟨d, hd, m₁, himp, hsigs⟩ := find?_of_get? hm hget
  have hfits : Fits d.proto.signature args := (fits_iff himp.signature).2 hargs
  have henter := enter_of_implements himp hget hfits bound ({} : Meter)
  cases bound with
  | zero =>
    refine ⟨0, fun fuel _ => ?_⟩
    rw [execute]
    simp only [henter]
    rfl
  | succ n =>
    have hcalls := (invoke_answers hm n (Nat.add_comm 1 n)).mono hsigs
    obtain ⟨fr, hfr, hbody⟩ :=
      body_follows himp hcalls hfits (t := ({} : Meter).within f.name) rfl []
    rw [if_neg (Nat.not_succ_le_zero n), hfr] at henter
    refine execute_of_ends henter ?_
    rw [Program.invoke, hd]
    show Thread.Ends m (n + 1) _ (d.body.eval _ _)
    cases hx : d.body.eval (Program.invoke ds (n + 1) n) (d.env args) with
    | error e =>
      rw [hx] at hbody
      exact hbody
    | ok w =>
      rw [hx] at hbody
      obtain ⟨th', hreach, hcallers, -, hreturn, -⟩ := hbody
      have hstep : th'.step m (n + 1) = Thread.handDown th'.meter w th'.callers :=
        Thread.step_of_returned hreturn
      rw [hcallers, Thread.handDown] at hstep
      exact hreach.ends (.of_step hstep)

end Calls

/-! ### Meanings are results -/

section Ending

variable {call : String → List Value → Except Fault Value} {env : String → Value}
  {params : List ScalarLang.Param} {sigs : Signatures}

theorem bind_ne_error {α β : Type} {x : Except Fault α} {f : α → Except Fault β} {e : Fault}
    (hx : x ≠ .error e) (hf : ∀ a, f a ≠ .error e) : x >>= f ≠ .error e := by
  intro h
  rcases bind_eq_error_iff.1 h with h | ⟨a, -, h⟩
  · exact hx h
  · exact hf a h

theorem pure_ne_error {α : Type} {a : α} {e : Fault} : (pure a : Except Fault α) ≠ .error e := by
  intro h
  cases h

theorem apply_ne_outOfFuel (op : Operator) (a b : Value) : op.apply a b ≠ .error .outOfFuel := by
  unfold Operator.apply
  split
  · refine bind_ne_error ?_ fun _ => pure_ne_error
    unfold Operator.onInts
    split
    case h_4 => split <;> simp
    all_goals simp
  · exact pure_ne_error
  · simp

/-- An evaluation ends with a value or a fault of its own, never for want of fuel. -/
theorem eval_ne_outOfFuel (hcall : ∀ name ws, call name ws ≠ .error .outOfFuel) {e : Expr}
    (he : e.Typed params sigs) : e.eval call env ≠ .error .outOfFuel := by
  induction he with
  | literal _ =>
    rw [Expr.eval]
    simp
  | var _ _ =>
    rw [Expr.eval]
    simp
  | binary _ _ _ _ ihl ihr =>
    rw [Expr.eval]
    exact bind_ne_error ihl fun a => bind_ne_error ihr fun b => apply_ne_outOfFuel _ a b
  | @call callee es tag _ _ _ ih =>
    have hall : Expr.evalAll call env es ≠ .error .outOfFuel := by
      clear * - ih
      induction es with
      | nil =>
        rw [Expr.evalAll]
        simp
      | cons e es ihs =>
        rw [Expr.evalAll]
        refine bind_ne_error (ih e List.mem_cons_self) fun v => ?_
        refine bind_ne_error (ihs fun e' he' => ih e' (List.mem_cons_of_mem e he')) fun vs => ?_
        exact pure_ne_error
    rw [Expr.eval]
    exact bind_ne_error hall fun ws => hcall callee ws
  | conditional _ _ _ _ _ ihc iht ihf =>
    rw [Expr.eval]
    refine bind_ne_error ihc fun c => ?_
    split
    · exact iht
    · exact ihf

theorem invoke_ne_outOfFuel {m : Ir.Module} {ds : List Definition} (hm : m.Implements ds)
    (bound n : Nat) (name : String) (args : List Value) :
    Program.invoke ds bound n name args ≠ .error .outOfFuel := by
  induction n generalizing name args with
  | zero => exact fun h => by cases h
  | succ n ih =>
    rw [Program.invoke]
    cases hd : Program.find? ds name with
    | none => simp
    | some d =>
      obtain ⟨m₁, hbody⟩ : ∃ m₁ : Ir.Module, d.Typed m₁.signature? := by
        have hmem : d ∈ ds := List.mem_of_find?_eq_some hd
        obtain ⟨i, hi, rfl⟩ := List.mem_iff_getElem.1 hmem
        have hlen := List.Forall₂.length_eq hm
        obtain ⟨m₁, himp, -⟩ := List.Forall₂.get hm (hlen ▸ hi) hi
        exact ⟨m₁, himp.typed⟩
      exact eval_ne_outOfFuel ih hbody.body

end Ending

end Machine

/-! ### Modules -/

/-- The functions of a module run like definitions, one by one.  Each has the name of its definition,
which is the one that the name means; and a fresh machine of any depth, given fuel enough, ends every run
of it with the result that the definition means. -/
def Ir.Module.RunsLike (m : Ir.Module) (ds : List Definition) : Prop :=
  List.Forall₂ (fun f d => f.name = d.proto.name ∧ Program.find? ds f.name = some d ∧
    ∀ (bound : Nat) (args : List Machine.Value),
      args.map Machine.Value.ty = f.params.map Ir.Param.ty →
      Program.invoke ds bound bound f.name args ≠ .error .outOfFuel ∧
      ∃ n, ∀ fuel, n ≤ fuel → (({ maxDepth := bound, fuel } : Machine).execute m f.name args).1 =
        Program.invoke ds bound bound f.name args) m.functions ds

theorem Ir.Module.Implements.runsLike {m : Ir.Module} {ds : List Definition} (h : m.Implements ds) :
    m.RunsLike ds := by
  have hsame : List.Forall₂ (fun f d => f.name = d.proto.name) m.functions ds :=
    List.Forall₂.imp (fun _ _ hfd => hfd.choose_spec.1.name) h
  have hnames : m.functions.map Ir.Function.name = ds.map fun d => d.proto.name := by
    rwa [← List.forall₂_eq_eq_eq, List.forall₂_map_left_iff, List.forall₂_map_right_iff]
  have hnodup : (ds.map fun d => d.proto.name).Nodup := hnames ▸ m.distinct
  refine List.forall₂_iff_zip.2 ⟨List.Forall₂.length_eq h, fun {f d} hmem => ?_⟩
  obtain ⟨hf, hd⟩ := List.of_mem_zip hmem
  obtain ⟨m₁, himp, -⟩ := (List.forall₂_iff_zip.1 h).2 hmem
  -- names are distinct, so the definition of that name is the one that the function came of
  obtain ⟨d', hfind, -⟩ := Machine.find?_of_get? h (Ir.Module.get?_eq_some_iff.2 ⟨hf, rfl⟩)
  have hname : d'.proto.name = f.name := by simpa using List.find?_some hfind
  have heq : d' = d := List.inj_on_of_nodup_map hnodup (List.mem_of_find?_eq_some hfind) hd
    (hname.trans himp.name)
  exact ⟨himp.name, heq ▸ hfind, fun bound args hargs =>
    ⟨Machine.invoke_ne_outOfFuel h bound bound f.name args, Machine.execute_eq_invoke h hf bound hargs⟩⟩

/-- **Compiled functions compute what their definitions mean.**  In every module that compiling texts
leads to, running a function gives what the definition means that it came of; and so it is while the
function of the unit that is being compiled is in the module, be that a definition or an expression. -/
theorem Session.Reached.compiled_runsLike {s : Session} {ds : List Definition} (h : s.Reached ds) :
    s.compiler.module.RunsLike ds ∧
      ∀ d f m', s.read? = some d → s.compiler.module.generate d = (.ok f, m') →
        m'.RunsLike (ds ++ [d]) := by
  have hs := h.sound
  refine ⟨hs.implements.runsLike, fun d f m' hread hgen => ?_⟩
  have hnew : s.compiler.module.contains d.proto.name = false := by
    rw [Bool.eq_false_iff]
    intro htaken
    rw [Ir.Module.generate_of_contains htaken] at hgen
    cases hgen
  obtain ⟨f', m'', hgen', -, -, -, himp⟩ :=
    (Session.accepts_of_read? hs.absent hread hnew).generate
  obtain ⟨-, rfl⟩ := Prod.mk.inj (hgen.symm.trans hgen')
  exact (himp ds hs.implements).runsLike

/-- The factorial, read from its text: with ten activations it comes to its value, and with five it runs
out of them. -/
theorem factorial_runsLike :
    let s := Session.start (Compiler.ofConfig {}) "def int f(int n) if n then n * f(n - 1) else 1"
    s.Reached [] ∧ ∃ d f m', s.read? = some d ∧ s.compiler.module.generate d = (.ok f, m') ∧
      m'.RunsLike [d] ∧ Program.invoke [d] 10 10 "f" [.int 5] = .ok (.int 120) ∧
      Program.invoke [d] 5 5 "f" [.int 5] = .error (.stackOverflow 5) := by
  intro s
  have hs : s.Reached [] := .ofConfig {} _
  have hresults : (s.read?.map fun d =>
      (Program.invoke [d] 10 10 "f" [.int 5], Program.invoke [d] 5 5 "f" [.int 5])) =
      some (.ok (.int 120), .error (.stackOverflow 5)) := by decide +kernel
  obtain ⟨d, hread, hd⟩ := Option.map_eq_some_iff.1 hresults
  obtain ⟨hvalue, hoverflow⟩ := Prod.mk.inj hd
  obtain ⟨f, m', hgen, -⟩ := (Session.accepts_of_read? rfl hread rfl).generate
  exact ⟨hs, d, f, m', hread, hgen, (Session.Reached.compiled_runsLike hs).2 d f m' hread hgen, hvalue,
    hoverflow⟩

end ScalarLang
