import ScalarLang.Proofs.Reading

/-!
# Typed expressions

An expression is typed if every node carries the type that the rules derive for it.  Whatever is read
from source text is typed: its literals by their form, its variables by the parameters, its calls by
the signatures in force.

* `paramTy?` — the type of the parameter that a name means.
* `Expr.Typed` — the rules.
* `Definition.Typed` — a definition whose parameters have distinct names and whose body is typed and has
  the result type.
* `Program.definition_reads`, `Program.topLevel_reads` — what is read is typed.
-/

namespace ScalarLang

/-- What holds of an expression if it holds of its parts holds of every expression. -/
theorem Expr.induct {P : Expr → Prop} (literal : ∀ value tag, P (.literal value tag))
    (var : ∀ name tag, P (.var name tag))
    (binary : ∀ op lhs rhs tag, P lhs → P rhs → P (.binary op lhs rhs tag))
    (call : ∀ callee args tag, (∀ a ∈ args, P a) → P (.call callee args tag))
    (conditional : ∀ condition onTrue onFalse tag, P condition → P onTrue → P onFalse →
      P (.conditional condition onTrue onFalse tag)) (e : Expr) : P e :=
  @Expr.rec P (fun args => ∀ a ∈ args, P a) literal var binary call conditional
    (fun _ ha => absurd ha List.not_mem_nil)
    (fun _ _ ha has => List.forall_mem_cons.2 ⟨ha, has⟩) e

/-- The type of the parameter that a name means: the last one of that name. -/
def paramTy? (params : List Param) (name : String) : Option NumType :=
  (params.reverse.find? fun p => p.name == name).map Param.ty

/-- The type that every node carries is the one that the rules derive, and it is resolved. -/
inductive Expr.Typed (params : List Param) (sigs : Signatures) : Expr → Prop
  | literal {value : Literal.Value} {tag : Expr.Tag} (h : tag.ty = Typing.literal value) :
      Typed params sigs (.literal value tag)
  | var {name : String} {tag : Expr.Tag} (h : paramTy? params name = some tag.ty)
      (hres : tag.ty.isResolved) : Typed params sigs (.var name tag)
  | binary {op : Operator} {lhs rhs : Expr} {tag : Expr.Tag} (hl : Typed params sigs lhs)
      (hr : Typed params sigs rhs) (hlty : lhs.ty = tag.ty) (hrty : rhs.ty = tag.ty) :
      Typed params sigs (.binary op lhs rhs tag)
  | call {callee : String} {args : List Expr} {tag : Expr.Tag}
      (h : sigs callee = some ⟨args.map Expr.ty, tag.ty⟩) (hargs : ∀ a ∈ args, Typed params sigs a)
      (hres : tag.ty.isResolved) : Typed params sigs (.call callee args tag)
  | conditional {condition onTrue onFalse : Expr} {tag : Expr.Tag}
      (hc : Typed params sigs condition) (ht : Typed params sigs onTrue)
      (hf : Typed params sigs onFalse) (htty : onTrue.ty = tag.ty) (hfty : onFalse.ty = tag.ty) :
      Typed params sigs (.conditional condition onTrue onFalse tag)

namespace Expr.Typed

variable {params : List Param} {sigs sigs' : Signatures} {e : Expr}

theorem resolved (h : e.Typed params sigs) : e.ty.isResolved := by
  induction h with
  | @literal value tag h =>
    show tag.ty.isResolved
    rw [h]
    cases value <;> rfl
  | var _ hres => exact hres
  | binary _ _ hlty _ ihl _ =>
    rw [hlty] at ihl
    exact ihl
  | call _ _ hres _ => exact hres
  | conditional _ _ _ htty _ _ iht _ =>
    rw [htty] at iht
    exact iht

/-- More functions can be called without a change to what is typed. -/
theorem mono (h : e.Typed params sigs)
    (hs : ∀ name sig, sigs name = some sig → sigs' name = some sig) : e.Typed params sigs' := by
  induction h with
  | literal h => exact .literal h
  | var h hres => exact .var h hres
  | binary _ _ hlty hrty ihl ihr => exact .binary ihl ihr hlty hrty
  | call h _ hres ih => exact .call (hs _ _ h) ih hres
  | conditional _ _ _ htty hfty ihc iht ihf => exact .conditional ihc iht ihf htty hfty

end Expr.Typed

/-! ### Parameters -/

/-- With distinct names, a parameter is the one that its name means. -/
theorem paramTy?_eq_some_iff {params : List Param} (h : (params.map Param.name).Nodup)
    {name : String} {ty : NumType} :
    paramTy? params name = some ty ↔ ∃ p ∈ params, p.name = name ∧ p.ty = ty := by
  unfold paramTy?
  rw [Option.map_eq_some_iff]
  constructor
  · rintro ⟨p, hp, rfl⟩
    exact ⟨p, List.mem_reverse.1 (List.mem_of_find?_eq_some hp), by simpa using List.find?_some hp, rfl⟩
  · rintro ⟨p, hp, rfl, rfl⟩
    obtain ⟨q, hq⟩ : ∃ q, (params.reverse.find? fun q => q.name == p.name) = some q := by
      rw [← Option.isSome_iff_exists, List.find?_isSome]
      exact ⟨p, List.mem_reverse.2 hp, by simp⟩
    have hmem := List.mem_reverse.1 (List.mem_of_find?_eq_some hq)
    have hname : q.name = p.name := by simpa using List.find?_some hq
    exact ⟨q, hq, congrArg Param.ty (List.inj_on_of_nodup_map h hmem hp hname)⟩

theorem foldlM_bind_eq_ok {function : String} {params : List Param} {s s' : Scope}
    (h : params.foldlM (Scope.bind function) s = .ok s') :
    s'.params = s.params ++ params.map (fun p => (p.name, p.ty)) ∧
      ((s.params.map Prod.fst).Nodup → (s'.params.map Prod.fst).Nodup) := by
  induction params generalizing s with
  | nil =>
    cases h
    simp
  | cons p params ih =>
    rw [List.foldlM_cons, bind_eq_ok_iff] at h
    obtain ⟨s₁, hs₁, h⟩ := h
    rw [Scope.bind] at hs₁
    split at hs₁
    · cases hs₁
    · next hfree =>
      cases hs₁
      obtain ⟨h₁, h₂⟩ := ih h
      refine ⟨by rw [h₁]; simp, fun hn => h₂ ?_⟩
      have hnew : p.name ∉ s.params.map Prod.fst := by
        intro hmem
        apply hfree
        rw [Scope.lookup?, List.lookup_isSome_iff]
        simpa using hmem
      rw [List.map_append, List.nodup_append]
      refine ⟨hn, by simp, ?_⟩
      intro a ha b hb hab
      rw [List.map_singleton, List.mem_singleton] at hb
      rw [hab, hb] at ha
      exact hnew ha

/-- The scope of a prototype holds its parameters, whose names are distinct. -/
theorem ofPrototype_eq_ok {p : Prototype} {s : Scope} (h : Scope.ofPrototype p = .ok s) :
    s.params = p.params.map (fun q => (q.name, q.ty)) ∧ (p.params.map Param.name).Nodup := by
  obtain ⟨h₁, h₂⟩ := foldlM_bind_eq_ok h
  have hparams : s.params = p.params.map (fun q => (q.name, q.ty)) := by simpa using h₁
  refine ⟨hparams, ?_⟩
  have hn := h₂ List.nodup_nil
  rw [hparams, List.map_map] at hn
  exact hn

/-- What is found in a scope is the type of a parameter. -/
theorem mem_of_lookup? {params : List Param} {name : String} {ty : NumType}
    (h : (params.map fun q => (q.name, q.ty)).lookup name = some ty) :
    ∃ p ∈ params, p.name = name ∧ p.ty = ty := by
  induction params with
  | nil => cases h
  | cons p params ih =>
    rw [List.map_cons, List.lookup_cons] at h
    by_cases hp : name = p.name
    · rw [hp, beq_self_eq_true] at h
      exact ⟨p, List.mem_cons_self, hp.symm, Option.some.inj h⟩
    · rw [beq_false_of_ne hp] at h
      obtain ⟨q, hq, hq'⟩ := ih h
      exact ⟨q, List.mem_cons_of_mem p hq, hq'⟩

/-! ### The rules -/

theorem arguments_eq_ok_iff {callee : String} {index : Nat} {tys : List NumType}
    {args : List Expr} (hlen : tys.length = args.length) :
    Typing.arguments callee index tys args = .ok () ↔ args.map Expr.ty = tys := by
  induction tys generalizing index args with
  | nil =>
    obtain rfl : args = [] := List.length_eq_zero_iff.1 hlen.symm
    simp [Typing.arguments]
  | cons ty tys ih =>
    cases args with
    | nil => cases hlen
    | cons a args =>
      rw [List.length_cons, List.length_cons, Nat.add_right_cancel_iff] at hlen
      rw [Typing.arguments, List.map_cons, List.cons.injEq]
      by_cases ha : a.ty = ty
      · rw [if_pos ha, ih hlen]
        simp [ha]
      · simp [ha]

/-- A call is typed by a signature that has the types of its arguments. -/
theorem call_eq_ok {ctx : Context} {callee : String} {args : List Expr} {span : Span}
    {ty : NumType} (h : Typing.call ctx callee args span = .ok ty) :
    ctx.signature? callee = some ⟨args.map Expr.ty, ty⟩ := by
  unfold Typing.call at h
  split at h
  · cases h
  · next sig hsig =>
    split at h
    · next hlen =>
      split at h
      · next hargs =>
        rw [arguments_eq_ok_iff hlen] at hargs
        cases h
        rw [hsig, hargs]
      · cases h
    · cases h

/-- The names of a context mean parameters, and all its signatures are resolved. -/
structure Context.Sound (params : List Param) (ctx : Context) : Prop where
  vars : ∀ name ty, ctx.scope.lookup? name = some ty →
    paramTy? params name = some ty ∧ ty.isResolved
  calls : ∀ name sig, ctx.signature? name = some sig → sig.ret.isResolved

theorem Context.Sound.var {params : List Param} {ctx : Context} (h : ctx.Sound params)
    {name : String} {span span' : Span} {ty : NumType} (hv : Typing.var ctx name span = .ok ty) :
    (Expr.var name ⟨ty, span'⟩).Typed params ctx.signature? := by
  unfold Typing.var at hv
  split at hv
  · next ty' hty' =>
    cases hv
    exact .var (h.vars name ty hty').1 (h.vars name ty hty').2
  · cases hv

theorem Context.Sound.call {params : List Param} {ctx : Context} (h : ctx.Sound params)
    {callee : String} {args : List Expr} {span span' : Span} {ty : NumType}
    (hargs : ∀ a ∈ args, a.Typed params ctx.signature?)
    (hv : Typing.call ctx callee args span = .ok ty) :
    (Expr.call callee args ⟨ty, span'⟩).Typed params ctx.signature? :=
  .call (call_eq_ok hv) hargs (h.calls _ _ (call_eq_ok hv))

theorem Expr.Typed.binary_of_typing {params : List Param} {sigs : Signatures} {op : Operator}
    {lhs rhs : Expr} {span : Span} {ty : NumType} (hl : lhs.Typed params sigs)
    (hr : rhs.Typed params sigs) (h : Typing.binary op lhs rhs = .ok ty) :
    (Expr.binary op lhs rhs ⟨ty, span⟩).Typed params sigs := by
  unfold Typing.binary at h
  split at h
  · next hty =>
    cases h
    refine .binary hl hr ?_ ?_
    · show lhs.ty = lhs.ty.combine rhs.ty
      rw [hty, NumType.combine_self]
    · show rhs.ty = lhs.ty.combine rhs.ty
      rw [hty, NumType.combine_self]
  · cases h

theorem Expr.Typed.conditional_of_typing {params : List Param} {sigs : Signatures}
    {condition onTrue onFalse : Expr} {span : Span} {ty : NumType}
    (hc : condition.Typed params sigs) (ht : onTrue.Typed params sigs)
    (hf : onFalse.Typed params sigs) (h : Typing.conditional onTrue onFalse = .ok ty) :
    (Expr.conditional condition onTrue onFalse ⟨ty, span⟩).Typed params sigs := by
  unfold Typing.conditional at h
  split at h
  · next hty =>
    cases h
    refine .conditional hc ht hf ?_ ?_
    · show onTrue.ty = onTrue.ty.combine onFalse.ty
      rw [hty, NumType.combine_self]
    · show onFalse.ty = onTrue.ty.combine onFalse.ty
      rw [hty, NumType.combine_self]
  · cases h

/-! ### Reading expressions -/

namespace Expr.Reader

open Parse

variable {I : Cursor → Prop} (hI : Cursor.Stable I) {params : List Param} {ctx : Context}
  (hctx : ctx.Sound params) (table : PrecedenceTable)
include hI

theorem literal_reads {value : Literal.Value} {span : Span} :
    Reads I (Typed params ctx.signature?) (literal value span) :=
  (Reads.advance hI).bind fun _ _ => Reads.pure (.literal rfl)

omit hI in
theorem operator_reads : Reads I (fun _ => True) operator := by
  intro c hc
  unfold operator
  split
  · next op c' h =>
    split at h
    · split at h
      · cases h
        exact ⟨hc, trivial⟩
      · cases h
    · cases h
  · next e c' h =>
    split at h
    · split at h
      · cases h
      · cases h
        exact hc
    · cases h
      exact hc

include hctx

theorem named_reads {name : String} {start : Span} {arguments : Parse (List Expr)}
    (h : Reads I (fun args => ∀ a ∈ args, a.Typed params ctx.signature?) arguments) :
    Reads I (Typed params ctx.signature?) (named ctx name start arguments) := by
  refine (Reads.advance hI).bind fun _ _ => ?_
  refine Reads.get.bind fun c _ => Reads.ite ?_ ?_
  · refine (Reads.advance hI).bind fun _ _ => ?_
    refine Reads.get.bind fun c _ => ?_
    -- both ways of getting arguments go on alike
    have close : ∀ args : List Expr, (∀ a ∈ args, a.Typed params ctx.signature?) →
        Reads I (Typed params ctx.signature?) (do
          let close ← Parse.expectChar ')'
          let ty ← Parse.check (Typing.call ctx name args (start.through close))
          return .call name args ⟨ty, start.through close⟩) := by
      intro args hargs
      refine (Reads.expectChar hI).bind fun span _ => ?_
      refine (Reads.check fun ty hty => hty).bind fun ty hty => ?_
      exact Reads.pure (hctx.call hargs hty)
    refine Reads.ite ?_ ?_
    · exact (Reads.pure (by simp)).bind close
    · exact h.bind close
  · refine (Reads.check fun ty hty => hty).bind fun ty hty => ?_
    exact Reads.pure (hctx.var hty)

omit hctx in
theorem parenthesised_reads {inner : Parse Expr}
    (h : Reads I (Typed params ctx.signature?) inner) :
    Reads I (Typed params ctx.signature?) (parenthesised inner) := by
  refine (Reads.advance hI).bind fun _ _ => ?_
  refine h.bind fun e he => ?_
  exact (Reads.expectChar hI).bind fun _ _ => Reads.pure he

omit hctx in
theorem conditional_reads {start : Span} {part : Parse Expr}
    (h : Reads I (Typed params ctx.signature?) part) :
    Reads I (Typed params ctx.signature?) (conditional start part) := by
  refine (Reads.advance hI).bind fun _ _ => ?_
  refine h.bind fun condition hc => ?_
  refine (Reads.expect hI).bind fun _ _ => ?_
  refine h.bind fun onTrue ht => ?_
  refine (Reads.expect hI).bind fun _ _ => ?_
  refine h.bind fun onFalse hf => ?_
  refine (Reads.check fun ty hty => hty).bind fun ty hty => ?_
  exact Reads.pure (.conditional_of_typing hc ht hf hty)

/-- **What is read is typed.**  By induction on the depth of the recursion, for the four readers at
once. -/
theorem readers_read (fuel : Nat) :
    Reads I (Typed params ctx.signature?) (expressionFor table ctx fuel) ∧
    Reads I (Typed params ctx.signature?) (primaryFor table ctx fuel) ∧
    (∀ least lhs, lhs.Typed params ctx.signature? →
      Reads I (Typed params ctx.signature?) (operatorsFor table ctx fuel least lhs)) ∧
    Reads I (fun args => ∀ a ∈ args, a.Typed params ctx.signature?)
      (argumentsFor table ctx fuel) := by
  induction fuel with
  | zero =>
    refine ⟨?_, ?_, fun _ _ _ => ?_, ?_⟩ <;> exact fun _ hc => hc
  | succ fuel ih =>
    obtain ⟨ihe, ihp, iho, iha⟩ := ih
    refine ⟨?_, ?_, ?_, ?_⟩
    · rw [expressionFor]
      exact ihp.bind fun lhs hl => iho 0 lhs hl
    · rw [primaryFor]
      refine Reads.get.bind fun start _ => ?_
      simp only
      split
      · exact literal_reads hI
      · split
        · exact named_reads hI hctx iha
        · exact conditional_reads hI ihe
        · exact Reads.ite (parenthesised_reads hI ihe) Reads.throw
        · exact Reads.throw
    · intro least lhs hl
      rw [operatorsFor]
      refine Reads.get.bind fun c _ => Reads.ite (Reads.pure hl) ?_
      refine operator_reads.bind fun op _ => ?_
      refine (Reads.advance hI).bind fun _ _ => ?_
      refine ihp.bind fun first hfirst => ?_
      refine Reads.get.bind fun c' _ => ?_
      -- the right operand is the primary, or what stronger operators make of it
      have fold : ∀ rhs : Expr, rhs.Typed params ctx.signature? →
          Reads I (Typed params ctx.signature?) (do
            let ty ← Parse.check (Typing.binary op lhs rhs)
            operatorsFor table ctx fuel least
              (.binary op lhs rhs ⟨ty, lhs.span.through rhs.span⟩)) := by
        intro rhs hr
        refine (Reads.check fun ty hty => hty).bind fun ty hty => ?_
        exact iho least _ (.binary_of_typing hl hr hty)
      refine Reads.ite ?_ ?_
      · exact (iho _ first hfirst).bind fold
      · exact (Reads.pure hfirst).bind fold
    · rw [argumentsFor]
      refine ihe.bind fun arg harg => ?_
      refine Reads.get.bind fun c _ => Reads.ite ?_ (Reads.ite ?_ Reads.expected)
      · exact Reads.pure (by simpa using harg)
      · refine (Reads.advance hI).bind fun _ _ => ?_
        refine iha.bind fun args hargs => ?_
        exact Reads.pure (List.forall_mem_cons.2 ⟨harg, hargs⟩)

theorem expression_reads : Reads I (Typed params ctx.signature?) (expression table ctx) :=
  fun c hc => (readers_read hI hctx table c.fuel).1 c hc

end Expr.Reader

/-! ### Reading definitions -/

/-- A definition whose parameters have distinct names and resolved types, and whose body is typed and
has the result type. -/
structure Definition.Typed (sigs : Signatures) (d : Definition) : Prop where
  names : (d.proto.params.map Param.name).Nodup
  params : ∀ p ∈ d.proto.params, p.ty.isResolved
  body : d.body.Typed d.proto.params sigs
  ret : d.body.ty = d.proto.ret

namespace Program

open Parse

/-- Do all signatures speak of resolved types only? -/
def Resolved (sigs : Signatures) : Prop := ∀ name sig, sigs name = some sig → sig.ret.isResolved

/-- The signatures that the body of a definition is read against. -/
def ownSignatures (sigs : Signatures) (proto : Prototype) : Signatures := fun name =>
  if proto.name = name then some proto.signature else sigs name

variable {I : Cursor → Prop} (hI : Cursor.Stable I)
include hI

theorem type_reads {what : String} : Reads I (fun ty => ty.isResolved = true) (type what) := by
  refine Reads.get.bind fun c _ => ?_
  split
  · exact (Reads.advance hI).bind fun _ _ => Reads.pure rfl
  · exact (Reads.advance hI).bind fun _ _ => Reads.pure rfl
  · exact Reads.expected

/-- A name is the one of a token that was being looked at. -/
theorem name_reads {what : String} {N : String → Prop}
    (hN : ∀ c name, I c → c.current.kind = .identifier name → N name) :
    Reads I (fun r => N r.1) (name what) := by
  refine Reads.get.bind fun c hc => ?_
  split
  · next n hn => exact (Reads.advance hI).bind fun _ _ => Reads.pure (hN c n hc hn)
  · exact Reads.expected

theorem parameter_reads {N : String → Prop}
    (hN : ∀ c name, I c → c.current.kind = .identifier name → N name) :
    Reads I (fun p => p.ty.isResolved = true ∧ N p.name) parameter := by
  refine Reads.get.bind fun _ _ => ?_
  refine (type_reads hI).bind fun ty hty => ?_
  refine (name_reads hI hN).bind fun _ hname => ?_
  exact Reads.pure ⟨hty, hname⟩

theorem parametersFor_reads {N : String → Prop}
    (hN : ∀ c name, I c → c.current.kind = .identifier name → N name) (n : Nat) :
    Reads I (fun params => ∀ p ∈ params, p.ty.isResolved = true ∧ N p.name) (parametersFor n) := by
  induction n with
  | zero => exact Reads.pure (by simp)
  | succ n ih =>
    refine (parameter_reads hI hN).bind fun p hp => ?_
    refine Reads.get.bind fun _ _ => Reads.ite ?_ ?_
    · refine (Reads.advance hI).bind fun _ _ => ?_
      refine ih.bind fun params hparams => ?_
      exact Reads.pure (List.forall_mem_cons.2 ⟨hp, hparams⟩)
    · exact Reads.pure (by simpa using hp)

/-- A prototype has resolved types only, and the names of tokens that were being looked at. -/
theorem prototype_reads {N : String → Prop}
    (hN : ∀ c name, I c → c.current.kind = .identifier name → N name) :
    Reads I (fun p => p.ret.isResolved ∧ (∀ q ∈ p.params, q.ty.isResolved = true ∧ N q.name) ∧ N p.name)
      prototype := by
  refine Reads.get.bind fun c _ => ?_
  refine (type_reads hI).bind fun ret hret => ?_
  refine (name_reads hI hN).bind fun r hr => ?_
  refine (Reads.expectChar hI).bind fun _ _ => ?_
  refine Reads.get.bind fun _ _ => ?_
  have close : ∀ params : List Param, (∀ q ∈ params, q.ty.isResolved = true ∧ N q.name) →
      Reads I
        (fun p => p.ret.isResolved ∧ (∀ q ∈ p.params, q.ty.isResolved = true ∧ N q.name) ∧ N p.name)
        (do let close ← Parse.expectChar ')'
            return (⟨r.1, params, ret, c.current.span.through close⟩ : Prototype)) :=
    fun params hparams => (Reads.expectChar hI).bind fun _ _ => Reads.pure ⟨hret, hparams, hr⟩
  refine Reads.ite ?_ ?_
  · exact (Reads.pure (by simp)).bind close
  · exact Reads.bind (fun c hc => parametersFor_reads hI hN _ c hc) close

variable (table : PrecedenceTable) {sigs : Signatures} (hs : Resolved sigs)
include hs

omit hI in
/-- The body of a definition is read in a sound context. -/
theorem sound_of_ofPrototype {proto : Prototype} {scope : Scope}
    (hret : proto.ret.isResolved) (hparams : ∀ q ∈ proto.params, q.ty.isResolved)
    (h : Scope.ofPrototype proto = .ok scope) :
    (⟨sigs, scope, some proto⟩ : Context).Sound proto.params := by
  obtain ⟨hscope, hn⟩ := ofPrototype_eq_ok h
  constructor
  · intro name ty hty
    have hty' : scope.params.lookup name = some ty := hty
    rw [hscope] at hty'
    obtain ⟨p, hp, hname, hpty⟩ := mem_of_lookup? hty'
    exact ⟨(paramTy?_eq_some_iff hn).2 ⟨p, hp, hname, hpty⟩, hpty ▸ hparams p hp⟩
  · intro name sig hsig
    change (if proto.name = name then some proto.signature else sigs name) = some sig at hsig
    split at hsig
    · cases hsig
      exact hret
    · exact hs name sig hsig

/-- **A definition that is read is typed**, against the signatures in force and its own. -/
theorem definition_reads {N : String → Prop}
    (hN : ∀ c name, I c → c.current.kind = .identifier name → N name) :
    Reads I (fun d => d.Typed (ownSignatures sigs d.proto) ∧ N d.proto.name ∧
        ∀ q ∈ d.proto.params, N q.name)
      (definition table sigs) := by
  refine (Reads.expect hI).bind fun _ _ => ?_
  refine (prototype_reads hI hN).bind fun proto hproto => ?_
  obtain ⟨hret, hboth, hname⟩ := hproto
  have hparams : ∀ q ∈ proto.params, q.ty.isResolved := fun q hq => (hboth q hq).1
  refine (Reads.check fun scope hscope => hscope).bind fun scope hscope => ?_
  have hctx := sound_of_ofPrototype hs hret hparams hscope
  refine (Expr.Reader.expression_reads hI hctx table).bind fun body hbody => ?_
  refine (Reads.check fun _ h => h).bind fun _ h => ?_
  refine Reads.pure
    ⟨⟨(ofPrototype_eq_ok hscope).2, hparams, hbody, ?_⟩, hname, fun q hq => (hboth q hq).2⟩
  rw [Typing.definition] at h
  split at h
  · next hty => exact hty
  · cases h

/-- **An expression that is read on its own is typed** against the signatures in force. -/
theorem topLevel_reads :
    Reads I (fun d => d.Typed sigs ∧ ∃ span, d.proto = Prototype.anonymous span)
      (topLevel table sigs) := by
  have hctx : (⟨sigs, {}, none⟩ : Context).Sound [] := by
    constructor
    · intro name ty h
      cases h
    · exact hs
  refine (Expr.Reader.expression_reads hI hctx table).bind fun body hbody => ?_
  refine (Reads.check fun _ h => h).bind fun _ h => ?_
  refine Reads.pure ⟨⟨by simp [Prototype.anonymous], by simp [Prototype.anonymous], hbody, ?_⟩,
    body.span, rfl⟩
  rw [Typing.definition] at h
  split at h
  · next hty => exact hty
  · cases h

end Program

end ScalarLang
