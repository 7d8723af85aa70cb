import ScalarLang.Proofs.Additions
import ScalarLang.Proofs.Naming
import ScalarLang.Proofs.Rendering

/-!
# The names in generated functions

A function that is made of source text has plain names only: letters, digits and underscores.  Those of the
function and of its parameters are words of the text, or the name that expressions are compiled under; those
that lowering asks for are fixed words; and a number at the end of a name changes nothing.  The functions
that are called are in the module, so their names are plain as well.

* `Ir.Builder.Continues`, `Ir.lower_continues` — lowering takes steps that ask for plain names.
* `Ir.Function.Legible` — a verified function whose names are plain and distinct.
* `Session.Reached.plain` — in every session, the functions of the module have plain names.
* `Ir.Function.Generated` — a function made of source text.
* `Ir.Function.Generated.legible` — such functions are legible.
-/

namespace ScalarLang

theorem isPlain_iff {s : String} : IsPlain s ↔ ∀ c ∈ s.toList, isPlainChar c = true :=
  List.all_eq_true

theorem IsPlain.append {s t : String} (hs : IsPlain s) (ht : IsPlain t) : IsPlain (s ++ t) := by
  rw [isPlain_iff, String.toList_append]
  exact List.forall_mem_append.2 ⟨isPlain_iff.1 hs, isPlain_iff.1 ht⟩

theorem isPlain_of_isAlphanum {s : String} (h : ∀ c ∈ s.toList, c.isAlphanum = true) : IsPlain s := by
  rw [isPlain_iff]
  intro c hc
  rw [isPlainChar, h c hc, Bool.true_or]

theorem isPlain_repr (n : Nat) : IsPlain n.repr := by
  refine isPlain_of_isAlphanum fun c hc => ?_
  rw [Nat.toList_repr] at hc
  rw [Char.isAlphanum, Nat.isDigit_of_mem_toDigits (by decide) (by decide) hc, Bool.or_true]

theorem isPlain_of_isWord {slice : List Char} (h : IsWord slice) : IsPlain (String.ofList slice) := by
  obtain ⟨c, cs, rfl, hc, hcs⟩ := h
  refine isPlain_of_isAlphanum ?_
  rw [String.toList_ofList]
  refine List.forall_mem_cons.2 ⟨?_, hcs⟩
  rw [Char.isAlphanum, hc, Bool.true_or]

/-! ### Names of a text -/

/-- A name that is an item of a text is a word. -/
theorem Partition.isPlain {p : Position} {cs : List Char} {items : List Item} (h : Partition p cs items)
    {name : String} {span : Span} (hmem : .ok ⟨.identifier name, span⟩ ∈ items) : IsPlain name := by
  induction h with
  | done h => simp at hmem
  | @item p filler slice after item items hf hs ht ih =>
    rcases List.mem_cons.1 hmem with hitem | hmem
    · rw [← hitem] at hs
      cases hs with
      | reserved h hk =>
        have hnone : ∀ entry ∈ Token.Kind.reserved, entry.2 ≠ .identifier name := by
          simp [Token.Kind.reserved]
        exact absurd rfl (hnone _ hk)
      | name h hk => exact isPlain_of_isWord h.1
    · exact ih hmem

theorem Cursor.Comes.isPlain {text : String} {c : Cursor} (h : c.Comes text) {name : String}
    (hk : c.current.kind = .identifier name) : IsPlain name := by
  rcases h with h | ⟨heof, -⟩
  · have hmem : .ok ⟨.identifier name, c.current.span⟩ ∈ items text := by
      rw [← hk]
      exact h.current
    exact (items_partition text).isPlain hmem
  · rw [hk] at heof
    cases heof

namespace Ir

/-! ### Names that are asked for -/

/-- Names that come of plain ones are plain. -/
theorem Reserved.isPlain {record : List (String × String)} (h : Reserved record)
    (hbase : ∀ call ∈ record, IsPlain call.1) : ∀ call ∈ record, IsPlain call.2 := by
  induction h with
  | nil => exact fun call hcall => absurd hcall List.not_mem_nil
  | @snoc record base name h hnew hfree htaken ih =>
    obtain ⟨hold, hlast⟩ := List.forall_mem_append.1 hbase
    have hplain : IsPlain base := hlast (base, name) List.mem_cons_self
    refine List.forall_mem_append.2 ⟨ih hold, ?_⟩
    intro call hcall
    rw [List.mem_singleton.1 hcall]
    by_cases hmem : base ∈ record.map Prod.snd
    · obtain ⟨n, hn⟩ := htaken hmem
      show IsPlain name
      rw [hn]
      exact hplain.append (isPlain_repr n)
    · show IsPlain name
      rw [hfree hmem]
      exact hplain

theorem Function.Named.isPlain {f : Function} {record : List (String × String)} (h : f.Named record)
    (hbase : ∀ call ∈ record, IsPlain call.1) : ∀ name ∈ f.ownNames, IsPlain name := by
  intro name hname
  obtain ⟨call, hcall, rfl⟩ := List.mem_map.1 ((h.mem_names_iff name).1 (h.own name hname))
  exact h.reserved.isPlain hbase call hcall

namespace Builder

variable {b b₁ b₂ : Builder}

/-- The step asks for no name, or for a plain one. -/
def Step.IsPlain (s : Step) : Prop := ∀ base ∈ s.base?, ScalarLang.IsPlain base

theorem Step.isPlain_of_base {s : Step} {base : String} (h : s.base? = some base)
    (hbase : ScalarLang.IsPlain base) : s.IsPlain := by
  intro base' hmem
  rw [h] at hmem
  cases hmem
  exact hbase

theorem Step.isPlain_of_none {s : Step} (h : s.base? = none) : s.IsPlain := by
  intro base hmem
  rw [h] at hmem
  cases hmem

/-- The second builder comes of the first by steps that ask for plain names. -/
def Continues (b b' : Builder) : Prop := ∃ steps, b' = b.run steps ∧ ∀ s ∈ steps, s.IsPlain

namespace Continues

theorem refl (b : Builder) : b.Continues b :=
  ⟨[], rfl, fun _ hs => absurd hs List.not_mem_nil⟩

theorem trans (h : b.Continues b₁) (h' : b₁.Continues b₂) : b.Continues b₂ := by
  obtain ⟨steps, rfl, hsteps⟩ := h
  obtain ⟨steps', rfl, hsteps'⟩ := h'
  refine ⟨steps ++ steps', ?_, List.forall_mem_append.2 ⟨hsteps, hsteps'⟩⟩
  rw [run, run, run, List.foldl_append]

theorem step (s : Step) (hs : s.IsPlain) : b.Continues (s.after b) :=
  ⟨[s], rfl, List.forall_mem_singleton.2 hs⟩

theorem terminate (t : Terminator) : b.Continues (b.terminate t) :=
  step (.terminate t) (Step.isPlain_of_none rfl)

theorem moveTo (t : Terminator) (next : BlockId) : b.Continues (b.moveTo t next) :=
  ((terminate t).trans (step (.appendBlock next) (Step.isPlain_of_none rfl))).trans
    (step (.position next) (Step.isPlain_of_none rfl))

theorem createBlock (label : String) (h : ScalarLang.IsPlain label) :
    b.Continues (b.createBlock label).2 :=
  step (.createBlock label) (Step.isPlain_of_base rfl h)

theorem branch (b : Builder) (test : Operand) : b.Continues (b.branch test).2 := by
  rw [branch_eq]
  exact (((createBlock "then" (by decide)).trans (createBlock "else" (by decide))).trans
    (createBlock "ifcont" (by decide))).trans (moveTo _ _)

end Continues

/-- What plain steps ask for is plain. -/
theorem isPlain_of_mem_calls {steps : List Step} (hsteps : ∀ s ∈ steps, s.IsPlain) :
    ∀ call ∈ b.calls steps, ScalarLang.IsPlain call.1 := by
  induction steps generalizing b with
  | nil => exact fun call hcall => absurd hcall List.not_mem_nil
  | cons s steps ih =>
    obtain ⟨hs, hrest⟩ := List.forall_mem_cons.1 hsteps
    refine List.forall_mem_append.2 ⟨fun call hcall => ?_, ih hrest⟩
    obtain ⟨base, hbase, rfl⟩ := List.mem_map.1 hcall
    exact hs base (Option.mem_toList.1 hbase)

end Builder

/-! ### Names of lowered expressions -/

section Lowering

open Lower

variable {m : Module} {params : List ScalarLang.Param} {b b' : Builder} {v l r : Operand}

theorem build_continues {α : Type} {step : Builder → α × Builder} {a : α} (s : Builder.Step)
    (hs : ∀ b, (step b).2 = s.after b) (hplain : s.IsPlain)
    (h : (build step : Lower α) b = .ok a b') : b.Continues b' := by
  rw [builder_of_build h, hs]
  exact .step s hplain

theorem Test.compare_continues (t : Test) {name : String} (hname : IsPlain name)
    (h : (build (·.push name .i1 (t.compare l r)) : Lower Operand) b = .ok v b') : b.Continues b' := by
  have hplain : ∀ {s : Builder.Step}, s.base? = some name → s.IsPlain :=
    fun hs => Builder.Step.isPlain_of_base hs hname
  cases t with
  | int pred => exact build_continues (.icmp pred l r name) (fun _ => rfl) (hplain rfl) h
  | double pred => exact build_continues (.fcmp pred l r name) (fun _ => rfl) (hplain rfl) h

theorem Test.widen_continues (t : Test) {name : String} (hname : IsPlain name)
    (h : (build (·.push name t.ty (t.widen l)) : Lower Operand) b = .ok v b') : b.Continues b' := by
  have hplain : ∀ {s : Builder.Step}, s.base? = some name → s.IsPlain :=
    fun hs => Builder.Step.isPlain_of_base hs hname
  cases t with
  | int pred => exact build_continues (.zext l name) (fun _ => rfl) (hplain rfl) h
  | double pred => exact build_continues (.uitofp l name) (fun _ => rfl) (hplain rfl) h

theorem Realizes.continues {ty : Ty} {op : Operator} {x : Lower Operand} (hx : Realizes ty l r op x)
    (h : x b = .ok v b') : b.Continues b' := by
  cases hx with
  | @arith code name hty _ hname =>
    subst hty
    exact build_continues (.binary code l r name) (fun _ => rfl)
      (Builder.Step.isPlain_of_base rfl hname) h
  | @test t _ _ hty _ hname hnumber =>
    subst hty
    obtain ⟨bit, b₁, h₁, h₂⟩ := run_bind_eq_ok_iff.1 h
    exact (t.compare_continues hname h₁).trans (t.widen_continues hnumber h₂)

theorem lowerCondition_continues {condition : Expr} {value : Operand}
    (h : lowerCondition condition value b = .ok v b') : b.Continues b' := by
  have hname : IsPlain "if_condition" := by decide
  unfold lowerCondition at h
  cases hty : condition.ty with
  | int =>
    rw [hty] at h
    exact Test.compare_continues (.int .ne) hname h
  | double =>
    rw [hty] at h
    exact Test.compare_continues (.double .une) hname h
  | unresolved =>
    rw [hty] at h
    exact absurd h run_throw_ne_ok

/-- **Lowering takes steps that ask for plain names.** -/
theorem lower_continues {e : Expr} (h : lower m params e b = .ok v b') : b.Continues b' := by
  induction e using Expr.induct generalizing b b' v with
  | literal value tag =>
    obtain ⟨-, -, rfl⟩ := lower_literal_eq_ok_iff.1 h
    exact .refl b
  | var name tag =>
    obtain ⟨-, -, rfl⟩ := lower_var_eq_ok_iff.1 h
    exact .refl b
  | binary op lhs rhs tag ihl ihr =>
    obtain ⟨⟨ty, hty⟩, l, b₁, r, b₂, hl, hr, -, hv⟩ := lower_binary_eq_ok_iff.1 h
    exact ((ihl hl).trans (ihr hr)).trans ((lowerOp_realizes op hty).continues hv)
  | call callee args tag ih =>
    obtain ⟨-, target, values, b₁, -, -, hvalues, hcall⟩ := lower_call_eq_ok_iff.1 h
    have hargs := lowerArgs_related Builder.Continues.refl .trans ih hvalues
    have hname : IsPlain "calltmp" := by decide
    rw [show b' = (b₁.call callee target.ret values "calltmp").2 by rw [hcall]]
    exact hargs.trans (.step (.call callee target.ret values "calltmp")
      (Builder.Step.isPlain_of_base rfl hname))
  | conditional condition onTrue onFalse tag ihc iht ihf =>
    obtain ⟨ty, value, b₁, test, b₂, tv, b₃, fv, b₄, -, hvalue, htest, -, htv, hfv, hphi⟩ :=
      lower_conditional_eq_ok_iff.1 h
    have hname : IsPlain "iftmp" := by decide
    have hb' := congrArg Prod.snd hphi
    simp only at hb'
    rw [← hb']
    have hchoice : b.Continues (b₂.branch test).2 :=
      ((ihc hvalue).trans (lowerCondition_continues htest)).trans (.branch b₂ test)
    have htrue : b.Continues (elseBuilder b₃ b₂.function.blocks.size) :=
      (hchoice.trans (iht htv)).trans (.moveTo _ _)
    have hfalse : b.Continues (joinBuilder b₄ b₂.function.blocks.size) :=
      (htrue.trans (ihf hfv)).trans (.moveTo _ _)
    exact hfalse.trans (.step (.phi ty _ "iftmp") (Builder.Step.isPlain_of_base rfl hname))

end Lowering

/-! ### Names of functions -/

theorem map_name_of_mapM_lowerParam {params : List ScalarLang.Param} {ps : List Param}
    (h : params.mapM lowerParam = .ok ps) :
    ps.map Param.name = params.map ScalarLang.Param.name := by
  induction params generalizing ps with
  | nil =>
    cases h
    rfl
  | cons p params ih =>
    rw [List.mapM_cons, bind_eq_ok_iff] at h
    obtain ⟨q, hq, h⟩ := h
    obtain ⟨qs, hqs, h⟩ := bind_eq_ok_iff.1 h
    obtain ⟨ty, -, hq⟩ := bind_eq_ok_iff.1 hq
    cases h
    cases hq
    rw [List.map_cons, List.map_cons, ih hqs]

namespace Function

variable {f declaration : Function} {m : Module} {d : Definition}

/-- A verified function whose names are plain and distinct, in a module of functions with plain names. -/
structure Legible (f : Function) (m : Module) : Prop where
  verified : f.Verified m
  name : IsPlain f.name
  own : ∀ name ∈ f.ownNames, IsPlain name
  nodup : f.ownNames.Nodup
  callees : ∀ g ∈ m.functions, IsPlain g.name

/-- The declaration of a prototype with plain names is named by a record of plain requests. -/
theorem named_of_declare {p : Prototype} (h : Ir.declare p = .ok declaration)
    (hparams : ∀ q ∈ p.params, IsPlain q.name) :
    ∃ record, declaration.Named record ∧ ∀ call ∈ record, IsPlain call.1 := by
  obtain ⟨ps, hps, h⟩ := bind_eq_ok_iff.1 h
  obtain ⟨ty, -, h⟩ := bind_eq_ok_iff.1 h
  cases h
  refine ⟨_, declare_named p.name ps ty, fun call hcall => ?_⟩
  have hname : call.1 ∈ ps.map Param.name := (List.of_mem_zip hcall).1
  rw [map_name_of_mapM_lowerParam hps] at hname
  obtain ⟨q, hq, hcall⟩ := List.mem_map.1 hname
  rw [← hcall]
  exact hparams q hq

/-- A function made of a definition with plain names is legible. -/
theorem MadeOf.legible (h : f.MadeOf d declaration m) (hdecl : Ir.declare d.proto = .ok declaration)
    (hname : IsPlain d.proto.name) (hparams : ∀ q ∈ d.proto.params, IsPlain q.name)
    (hm : ∀ g ∈ m.functions, IsPlain g.name) : f.Legible m := by
  obtain ⟨record, hnamed, hbase⟩ := named_of_declare hdecl hparams
  obtain ⟨v, b, hlower, -, hf⟩ := h.code
  have hentry : IsPlain "entry" := by decide
  have hstart : ({ function := declaration } : Builder).Continues (entryBuilder declaration) :=
    (Builder.Continues.step (.appendNewBlock "entry")
      (Builder.Step.isPlain_of_base rfl hentry)).trans
      (.step (.position _) (Builder.Step.isPlain_of_none rfl))
  obtain ⟨steps, hsteps, hplain⟩ := (hstart.trans (lower_continues hlower)).trans (.terminate (.ret v))
  have hrun : f.Named (record ++ ({ function := declaration } : Builder).calls steps) := by
    rw [hf, hsteps]
    exact Builder.named_run hnamed steps
  refine ⟨h.verified, ?_, ?_, hrun.nodup, hm⟩
  · rw [h.name_eq]
    exact hname
  · exact hrun.isPlain
      (List.forall_mem_append.2 ⟨hbase, Builder.isPlain_of_mem_calls hplain⟩)

end Function

end Ir

/-! ### Names in sessions -/

namespace Session

variable {s s' : Session} {o : Outcome} {ds : List Definition} {text : String} {c c' : Cursor}
  {d : Definition}

/-- The names in what a unit reads are words of the text, or the name of expressions. -/
theorem InText.isPlain_of_reads (hs : s.InText text)
    (h : s.cursor.seek s.needsAdvance = (.unit, c)) (hr : s.reads c = .ok d c') :
    IsPlain d.proto.name ∧ ∀ q ∈ d.proto.params, IsPlain q.name := by
  have hcomes : c.Comes text := .inl (hs.stands_of_unit h)
  have hstable : Cursor.Stable (Cursor.Comes text) := Cursor.comes_stable
  by_cases hk : c.current.kind = .kwDef
  · rw [reads_of_kwDef hk] at hr
    have hreads := Program.definition_reads hstable s.compiler.config.precedence
      s.compiler.module.signature?_resolved (N := IsPlain) fun c name hc hk => hc.isPlain hk
    exact (hreads.ok hcomes hr).2.2
  · rw [reads_of_ne_kwDef hk] at hr
    have hreads := Program.topLevel_reads hstable s.compiler.config.precedence
      s.compiler.module.signature?_resolved
    obtain ⟨-, -, span, hproto⟩ := hreads.ok hcomes hr
    rw [hproto]
    have hname : IsPlain Prototype.anonymousName := by decide
    exact ⟨hname, by simp [Prototype.anonymous]⟩

/-- The function that a unit makes is legible, if the functions of the module have plain names. -/
theorem InText.legible_of_generate {f : Ir.Function} {m : Ir.Module} (hs : s.InText text)
    (hm : ∀ g ∈ s.compiler.module.functions, IsPlain g.name)
    (h : s.cursor.seek s.needsAdvance = (.unit, c)) (hr : s.reads c = .ok d c')
    (hg : s.compiler.module.generate d = (.ok f, m)) :
    m.functions = s.compiler.module.functions ++ [f] ∧ ∃ m', f.Legible m' := by
  obtain ⟨hname, hparams⟩ := hs.isPlain_of_reads h hr
  obtain ⟨hnew, -, hfunctions, declaration, hdecl, hmade⟩ := Ir.Module.generate_of_ok hg
  refine ⟨hfunctions, _, hmade.legible hdecl hname hparams ?_⟩
  have hnew' : s.compiler.module.contains declaration.name = false := hmade.name ▸ hnew
  rw [Ir.Module.functions_insert hnew']
  refine List.forall_mem_append.2 ⟨hm, List.forall_mem_singleton.2 ?_⟩
  rw [hmade.name]
  exact hname

/-- A unit leaves plain names in the module. -/
theorem InText.isPlain_of_goes (hs : s.InText text)
    (hm : ∀ g ∈ s.compiler.module.functions, IsPlain g.name) (h : s.Goes o s') :
    ∀ g ∈ s'.compiler.module.functions, IsPlain g.name := by
  have hadded : ∀ {c c' d f m}, s.cursor.seek s.needsAdvance = (.unit, c) → s.reads c = .ok d c' →
      s.compiler.module.generate d = (.ok f, m) → ∀ g ∈ m.functions, IsPlain g.name := by
    intro c c' d f m hseek hr hg
    obtain ⟨hfunctions, m', hlegible⟩ := hs.legible_of_generate hm hseek hr hg
    rw [hfunctions]
    exact List.forall_mem_append.2 ⟨hm, List.forall_mem_singleton.2 hlegible.name⟩
  have herased : ∀ {m : Ir.Module}, (∀ g ∈ m.functions, IsPlain g.name) →
      ∀ g ∈ (m.erase Prototype.anonymousName).functions, IsPlain g.name :=
    fun hall g hg => hall g (List.mem_of_mem_filter hg)
  cases h with
  | malformed _ => exact hm
  | unreadable _ _ => exact hm
  | refused _ _ hg =>
    have hsame := Ir.Module.generate_of_error (congrArg Prod.fst hg)
    obtain ⟨-, rfl⟩ := Prod.mk.inj (hg.symm.trans hsame)
    exact hm
  | defined h _ hr hg => exact hadded h hr hg
  | evaluated h _ hr hg _ => exact herased (hadded h hr hg)
  | faulted h _ hr hg _ => exact herased (hadded h hr hg)

/-- **In every session, the functions of the module have plain names.** -/
theorem Reached.plain (h : s.Reached ds) :
    (∃ text, s.InText text) ∧ ∀ g ∈ s.compiler.module.functions, IsPlain g.name := by
  have hstart : ∀ (compiler : Compiler) (text : String), ∃ text', (start compiler text).InText text' :=
    fun compiler text => ⟨text, Cursor.comes_ofText text, Cursor.ended_ofText text⟩
  induction h with
  | ofConfig config text => exact ⟨hstart _ text, fun g hg => absurd hg List.not_mem_nil⟩
  | withMachine config fuel text => exact ⟨hstart _ text, fun g hg => absurd hg List.not_mem_nil⟩
  | again h text ih => exact ⟨hstart _ text, ih.2⟩
  | unit h hn ih =>
    obtain ⟨⟨text, htext⟩, hm⟩ := ih
    have hgoes := goes_of_next hn
    exact ⟨⟨text, htext.goes hgoes⟩, htext.isPlain_of_goes hm hgoes⟩

/-- The function that comes of what the next unit reads, if one does. -/
def made? (s : Session) : Option Ir.Function :=
  s.read?.bind fun d => (s.compiler.module.generate d).1.toOption

theorem read?_eq_some_iff : s.read? = some d ↔
    ∃ c c', s.cursor.seek s.needsAdvance = (.unit, c) ∧ s.reads c = .ok d c' := by
  unfold read?
  constructor
  · intro h
    split at h
    · next c hseek =>
      cases hr : s.reads c with
      | ok d' c' =>
        rw [reads] at hr
        simp only [hr, Option.some.injEq] at h
        exact ⟨c, c', hseek, h ▸ hr⟩
      | error e c' =>
        rw [reads] at hr
        simp only [hr] at h
        cases h
    · cases h
  · intro h
    obtain ⟨c, c', hseek, hr⟩ := h
    rw [reads] at hr
    simp only [hseek, hr]

theorem made?_eq_some {f : Ir.Function} (h : s.made? = some f) :
    ∃ d m, s.read? = some d ∧ s.compiler.module.generate d = (.ok f, m) := by
  obtain ⟨d, hread, hmade⟩ := Option.bind_eq_some_iff.1 h
  refine ⟨d, (s.compiler.module.generate d).2, hread, Prod.ext ?_ rfl⟩
  cases hresult : (s.compiler.module.generate d).1 with
  | ok f' =>
    rw [hresult] at hmade
    exact congrArg Except.ok (Option.some.inj hmade)
  | error e =>
    rw [hresult] at hmade
    cases hmade

end Session

namespace Ir.Function

/-- The function was made of source text: in a session that any texts have led to, of what the next unit
reads there. -/
def Generated (f : Function) : Prop := ∃ s ds, Session.Reached s ds ∧ s.made? = some f

/-- **Functions made of source text are legible.** -/
theorem Generated.legible {f : Function} (h : f.Generated) : ∃ m, f.Legible m := by
  obtain ⟨s, ds, hs, hmade⟩ := h
  obtain ⟨d, m, hread, hg⟩ := Session.made?_eq_some hmade
  obtain ⟨⟨text, htext⟩, hm⟩ := hs.plain
  obtain ⟨c, c', hseek, hr⟩ := Session.read?_eq_some_iff.1 hread
  exact (htext.legible_of_generate hm hseek hr hg).2

end Ir.Function

end ScalarLang
