import ScalarLang.Proofs.Acceptance

/-!
# Adding definitions to a module

The function of a definition is added in steps.  Its declaration goes in first, so that the body can
call it; then the body is lowered and verified, and the function takes the place of the declaration.
Each step can refuse, whatever types the nodes of the body carry, and then the module is what it was.
What comes of a definition depends on the module through the signatures of its callees alone.

* `Ir.Function.MadeOf` — everything that is known of a function that came of a definition.
* `Ir.Module.generate_cases` — a definition is refused and changes nothing, or its function is one more.
* `Ir.Module.generate_atomic` — and that function has the types of the prototype and is verified.
* `Expr.callees` — the functions that an expression calls.
* `Ir.lower_serves` — lowering asks for the types of callees only.
* `Ir.Module.generate_separately` — a definition becomes the same function in every module in which its
  callees look the same, so that definitions that do not call each other can be added in either order.
-/

namespace ScalarLang

namespace Ir

/-! ### One definition -/

/-- The function `f` came of the definition `d`: its body was lowered behind `declaration`, in the module
`m` that holds the declaration. -/
structure Function.MadeOf (f : Function) (d : Definition) (declaration : Function) (m : Module) :
    Prop where
  bare : declaration.Bare
  name : declaration.name = d.proto.name
  signature : declaration.HasSignature d.proto.signature
  typed : d.body.Typed d.proto.params m.signature?
  ret : d.body.ty = d.proto.ret
  code : ∃ v b, lower m d.proto.params d.body (entryBuilder declaration) = .ok v b ∧
    Lowered m (entryBuilder declaration) b ∧ f = (b.terminate (.ret v)).function
  grown : declaration.Extends f
  verified : f.Verified m

namespace Function.MadeOf

variable {f declaration : Function} {d : Definition} {m : Module}

theorem of_lowerBody (hdecl : Ir.declare d.proto = .ok declaration)
    (h : lowerBody m declaration d = .ok f) : f.MadeOf d declaration m := by
  obtain ⟨hparams, hret⟩ := resolved_of_declare hdecl
  obtain ⟨declaration', hdecl', hname, hsig, hbare⟩ := declare_typed hparams hret
  have hsame : declaration = declaration' := Except.ok.inj (hdecl.symm.trans hdecl')
  subst hsame
  obtain ⟨htyped, hty⟩ := typed_of_lowerBody hbare hsig h
  obtain ⟨v, b, hv, hlow, hgrown, hbody⟩ := lowerBody_of_typed htyped hty hbare hsig
  have hf : f = (b.terminate (.ret v)).function := Except.ok.inj (h.symm.trans hbody)
  refine ⟨hbare, hname, hsig, htyped, hty, ⟨v, b, hv, hlow, hf⟩, ?_, verified_of_lowerBody h⟩
  rw [hf]
  exact hgrown

theorem name_eq (h : f.MadeOf d declaration m) : f.name = d.proto.name := by
  rw [h.grown.name, h.name]

/-- The function looks to callers as its prototype says. -/
theorem hasSignature (h : f.MadeOf d declaration m) : f.HasSignature d.proto.signature := by
  refine ⟨?_, ?_⟩
  · rw [h.grown.params]
    exact h.signature.params
  · rw [h.grown.ret]
    exact h.signature.ret

end Function.MadeOf

namespace Module

variable {m m' : Module} {d : Definition} {f declaration : Function}

/-- A definition that is refused leaves the module as it was. -/
theorem generate_of_error {e : LoweringError} (h : (m.generate d).1 = .error e) :
    m.generate d = (.error e, m) := by
  unfold generate at h ⊢
  by_cases hold : m.contains d.proto.name = true
  · rw [if_pos hold] at h ⊢
    exact congrArg (fun r => (r, m)) h
  · rw [if_neg hold] at h ⊢
    have hnew : m.contains d.proto.name = false := Bool.eq_false_iff.2 hold
    cases hdecl : declare d.proto with
    | error e' =>
      rw [hdecl] at h
      exact congrArg (fun r => (r, m)) h
    | ok declaration =>
      rw [hdecl] at h
      simp only at h ⊢
      cases hbody : lowerBody (m.insert declaration) declaration d with
      | ok f =>
        rw [hbody] at h
        cases h
      | error e' =>
        rw [hbody] at h
        -- the declaration is the one function more, and it is taken out again
        obtain ⟨hparams, hret⟩ := resolved_of_declare hdecl
        obtain ⟨declaration', hdecl', hname, -, -⟩ := declare_typed hparams hret
        have hsame : declaration = declaration' := Except.ok.inj (hdecl.symm.trans hdecl')
        subst hsame
        have hnew' : m.contains declaration.name = false := hname ▸ hnew
        have hback : (m.insert declaration).erase d.proto.name = m := by
          rw [← hname]
          exact erase_eq_of_functions rfl (functions_insert hnew') hnew'
        rw [Except.error.inj h]
        exact congrArg (fun m => (Except.error e, m)) hback

/-- A definition that is accepted has a new name, and its function goes to the end. -/
theorem generate_of_ok (h : m.generate d = (.ok f, m')) :
    m.contains d.proto.name = false ∧ m'.name = m.name ∧ m'.functions = m.functions ++ [f] ∧
      ∃ declaration, declare d.proto = .ok declaration ∧
        f.MadeOf d declaration (m.insert declaration) := by
  obtain ⟨hnew, declaration, hdecl, hbody, rfl⟩ := generate_eq_ok h
  have hmade : f.MadeOf d declaration (m.insert declaration) := .of_lowerBody hdecl hbody
  have hnew' : m.contains declaration.name = false := hmade.name ▸ hnew
  refine ⟨hnew, rfl, functions_insert_insert hnew' ?_, declaration, hdecl, hmade⟩
  rw [hmade.name_eq, hmade.name]

/-- **A definition is refused and changes nothing, or its function is one more.** -/
theorem generate_cases (m : Module) (d : Definition) :
    (∃ e, m.generate d = (.error e, m)) ∨
      ∃ f m', m.generate d = (.ok f, m') ∧ m'.functions = m.functions ++ [f] ∧
        f.name = d.proto.name := by
  cases h : (m.generate d).1 with
  | error e => exact .inl ⟨e, generate_of_error h⟩
  | ok f =>
    have hgen : m.generate d = (.ok f, (m.generate d).2) := Prod.ext h rfl
    obtain ⟨-, -, hfunctions, declaration, -, hmade⟩ := generate_of_ok hgen
    exact .inr ⟨f, _, hgen, hfunctions, hmade.name_eq⟩

/-- A function passes verification where it was added, although it was verified against its
declaration. -/
theorem verified_of_generate (h : m.generate d = (.ok f, m')) : f.Verified m' := by
  obtain ⟨hnew, -, hfunctions, declaration, -, hmade⟩ := generate_of_ok h
  have hins : (m.insert declaration).functions = m.functions ++ [declaration] :=
    functions_insert (hmade.name ▸ hnew)
  refine hmade.verified.of_serves (serves_of_declaration hins hfunctions hmade.grown.name ?_ ?_)
  · rw [hmade.grown.params]
  · exact hmade.grown.ret

/-- **Adding a definition is all or nothing.**  A definition that is refused, for whatever reason, leaves
the module exactly as it was.  Otherwise the module has one more function, at its end: it has the name of
the prototype and the types in which its parameters and its result are computed, and it passes
verification against the module as it is now.  Nothing is assumed of the module, which may have had
functions added and taken out, or of the definition. -/
theorem generate_atomic (m : Module) (d : Definition) :
    (∃ e, m.generate d = (.error e, m)) ∨
      ∃ f m', m.generate d = (.ok f, m') ∧ m'.name = m.name ∧ m'.functions = m.functions ++ [f] ∧
        f.name = d.proto.name ∧ m.contains d.proto.name = false ∧
        (d.proto.params.map fun p => Ty.ofNum? p.ty) = (f.params.map fun p => some p.ty) ∧
        Ty.ofNum? d.proto.ret = some f.ret ∧ f.verify m' = .ok () := by
  cases h : (m.generate d).1 with
  | error e => exact .inl ⟨e, generate_of_error h⟩
  | ok f =>
    have hgen : m.generate d = (.ok f, (m.generate d).2) := Prod.ext h rfl
    obtain ⟨hnew, hname, hfunctions, declaration, -, hmade⟩ := generate_of_ok hgen
    have hsig := hmade.hasSignature
    have hverify := Function.verify_eq_ok_iff.2 (verified_of_generate hgen)
    refine .inr ⟨f, _, hgen, hname, hfunctions, hmade.name_eq, hnew, ?_, hsig.ret, hverify⟩
    have hparams := hsig.params
    rw [Prototype.signature, List.map_map] at hparams
    exact hparams

end Module

end Ir

/-! ### Callees -/

namespace Expr

mutual

/-- The names of the functions that an expression calls. -/
def callees : Expr → List String
  | literal _ _ => []
  | var _ _ => []
  | binary _ lhs rhs _ => lhs.callees ++ rhs.callees
  | call callee args _ => callee :: calleesAll args
  | conditional condition onTrue onFalse _ => condition.callees ++ (onTrue.callees ++ onFalse.callees)

/-- The names of the functions that the expressions of a list call. -/
def calleesAll : List Expr → List String
  | [] => []
  | e :: es => e.callees ++ calleesAll es

end

variable {e : Expr} {callee : String}

theorem mem_calleesAll {es : List Expr} : callee ∈ calleesAll es ↔ ∃ e ∈ es, callee ∈ e.callees := by
  induction es with
  | nil => simp [calleesAll]
  | cons e es ih => simp [calleesAll, ih]

/-- What an argument calls is called by the whole call. -/
theorem mem_callees_of_arg {args : List Expr} {tag : Tag} {a : Expr} {name : String} (ha : a ∈ args)
    (h : callee ∈ a.callees) : callee ∈ (call name args tag).callees :=
  List.mem_cons_of_mem _ (mem_calleesAll.2 ⟨a, ha, h⟩)

variable {params : List Param} {sigs sigs' : Signatures}

/-- A typed expression knows the signatures of all its callees. -/
theorem Typed.exists_signature (h : e.Typed params sigs) (hc : callee ∈ e.callees) :
    ∃ sig, sigs callee = some sig := by
  induction h with
  | literal _ => cases hc
  | var _ _ => cases hc
  | binary _ _ _ _ ihl ihr =>
    rcases List.mem_append.1 hc with hc | hc
    · exact ihl hc
    · exact ihr hc
  | call hsig _ _ ih =>
    rcases List.mem_cons.1 hc with rfl | hc
    · exact ⟨_, hsig⟩
    · obtain ⟨a, ha, hc⟩ := mem_calleesAll.1 hc
      exact ih a ha hc
  | conditional _ _ _ _ _ ihc iht ihf =>
    rcases List.mem_append.1 hc with hc | hc
    · exact ihc hc
    · rcases List.mem_append.1 hc with hc | hc
      · exact iht hc
      · exact ihf hc

/-- Only the signatures of the callees matter to what is typed. -/
theorem Typed.of_callees (h : e.Typed params sigs)
    (hs : ∀ callee ∈ e.callees, sigs callee = sigs' callee) : e.Typed params sigs' := by
  induction h with
  | literal h => exact .literal h
  | var h hres => exact .var h hres
  | binary _ _ hlty hrty ihl ihr =>
    have hparts := List.forall_mem_append.1 hs
    exact .binary (ihl hparts.1) (ihr hparts.2) hlty hrty
  | @call callee args tag h _ hres ih =>
    refine .call ?_ (fun a ha => ih a ha fun name hc => hs name (mem_callees_of_arg ha hc)) hres
    rw [← hs callee List.mem_cons_self]
    exact h
  | conditional _ _ _ htty hfty ihc iht ihf =>
    have hparts := List.forall_mem_append.1 hs
    have hbranches := List.forall_mem_append.1 hparts.2
    exact .conditional (ihc hparts.1) (iht hbranches.1) (ihf hbranches.2) htty hfty

end Expr

namespace Ir

open Lower

/-! ### Lowering in another module -/

section Serving

variable {m m' : Module} {params : List ScalarLang.Param}

/-- Each of the given names that means a function in `m` means one in `m'`, with the same types. -/
def Module.ServesAll (m m' : Module) (names : List String) : Prop :=
  ∀ name ∈ names, ∀ f, m.get? name = some f →
    ∃ f', m'.get? name = some f' ∧ f'.params.map Param.ty = f.params.map Param.ty ∧ f'.ret = f.ret

theorem Module.servesAll_append {names names' : List String} (h : m.ServesAll m' (names ++ names')) :
    m.ServesAll m' names ∧ m.ServesAll m' names' := List.forall_mem_append.1 h

/-- Arguments are compared with the types of parameters, whatever these are called. -/
theorem lowerArgs_serves {callee : String} {args : List Expr}
    (hargs : ∀ a ∈ args, ∀ b v b', lower m params a b = .ok v b' → lower m' params a b = .ok v b')
    {index : Nat} {targets targets' : List Param}
    (htys : targets'.map Param.ty = targets.map Param.ty) {b b' : Builder} {vs : List Operand}
    (h : lowerArgs m params callee index args targets b = .ok vs b') :
    lowerArgs m' params callee index args targets' b = .ok vs b' := by
  induction args generalizing index targets targets' b vs with
  | nil =>
    rw [lowerArgs.eq_def] at h ⊢
    exact h
  | cons a args ih =>
    cases targets with
    | nil =>
      have hnil : targets' = [] := by simpa using htys
      subst hnil
      rw [lowerArgs.eq_def] at h ⊢
      exact h
    | cons target targets =>
      cases targets' with
      | nil => cases htys
      | cons target' targets' =>
        rw [List.map_cons, List.map_cons, List.cons.injEq] at htys
        obtain ⟨hty, v, b₁, vs', hv, hvs, rfl⟩ := lowerArgs_cons_eq_ok_iff.1 h
        refine lowerArgs_cons_eq_ok_iff.2 ⟨?_, v, b₁, vs', ?_, ?_, rfl⟩
        · rw [htys.1]
          exact hty
        · exact hargs a List.mem_cons_self b v b₁ hv
        · exact ih (fun a' ha' => hargs a' (List.mem_cons_of_mem a ha')) htys.2 hvs

/-- **Lowering asks for the types of callees only.**  By induction on the expression: the module is looked
at where a call is lowered, and what is found there goes into the instruction as a result type. -/
theorem lower_serves {e : Expr} (hm : m.ServesAll m' e.callees) {b b' : Builder} {v : Operand}
    (h : lower m params e b = .ok v b') : lower m' params e b = .ok v b' := by
  induction e using Expr.induct generalizing b b' v with
  | literal value tag => exact lower_literal_eq_ok_iff.2 (lower_literal_eq_ok_iff.1 h)
  | var name tag => exact lower_var_eq_ok_iff.2 (lower_var_eq_ok_iff.1 h)
  | binary op lhs rhs tag ihl ihr =>
    obtain ⟨hml, hmr⟩ := Module.servesAll_append hm
    obtain ⟨hty, l, b₁, r, b₂, hl, hr, htys, hv⟩ := lower_binary_eq_ok_iff.1 h
    exact lower_binary_eq_ok_iff.2 ⟨hty, l, b₁, r, b₂, ihl hml hl, ihr hmr hr, htys, hv⟩
  | call callee args tag ih =>
    obtain ⟨hty, target, values, b₁, htarget, hlen, hvalues, hv⟩ := lower_call_eq_ok_iff.1 h
    obtain ⟨target', htarget', hparams, hret⟩ := hm callee List.mem_cons_self target htarget
    have hmargs : ∀ a ∈ args, m.ServesAll m' a.callees :=
      fun a ha name hc => hm name (Expr.mem_callees_of_arg ha hc)
    have hvalues' : lowerArgs m' params callee 0 args target'.params b = .ok values b₁ :=
      lowerArgs_serves (fun a ha b v b' h => ih a ha (hmargs a ha) h) hparams hvalues
    have hlen' : target'.params.length = args.length := by
      rw [← hlen]
      simpa using congrArg List.length hparams
    rw [← hret] at hv
    exact lower_call_eq_ok_iff.2 ⟨hty, target', values, b₁, htarget', hlen', hvalues', hv⟩
  | conditional condition onTrue onFalse tag ihc iht ihf =>
    obtain ⟨hmc, hm⟩ := Module.servesAll_append hm
    obtain ⟨hmt, hmf⟩ := Module.servesAll_append hm
    obtain ⟨ty, value, b₁, test, b₂, tv, b₃, fv, b₄, hty, hc, htest, htys, ht, hf, hv⟩ :=
      lower_conditional_eq_ok_iff.1 h
    exact lower_conditional_eq_ok_iff.2 ⟨ty, value, b₁, test, b₂, tv, b₃, fv, b₄, hty, ihc hmc hc, htest,
      htys, iht hmt ht, ihf hmf hf, hv⟩

/-- Callees with equal signatures have equal types. -/
theorem servesAll_of_signatures {e : Expr} (he : e.Typed params m.signature?)
    (hs : ∀ callee ∈ e.callees, m.signature? callee = m'.signature? callee) :
    m.ServesAll m' e.callees := by
  intro callee hc f hf
  obtain ⟨sig, hsig⟩ := he.exists_signature hc
  obtain ⟨g, hg, hgsig⟩ := Module.signature?_eq_some_iff.1 hsig
  have hsame : f = g := Option.some.inj (hf.symm.trans hg)
  subst hsame
  rw [hs callee hc] at hsig
  obtain ⟨f', hf', hsig'⟩ := Module.signature?_eq_some_iff.1 hsig
  obtain ⟨hparams, hret⟩ := hsig'.map_ty hgsig
  exact ⟨f', hf', hparams, hret⟩

end Serving

namespace Module

variable {m m' : Module} {d : Definition}

/-- A definition that becomes a function of one module becomes the same function of another in which its
callees look the same. -/
theorem generate_of_signatures (hnew' : m'.contains d.proto.name = false)
    (hs : ∀ callee ∈ d.body.callees, callee ≠ d.proto.name →
      m.signature? callee = m'.signature? callee) {f : Function} (h : (m.generate d).1 = .ok f) :
    (m'.generate d).1 = .ok f := by
  have hgen : m.generate d = (.ok f, (m.generate d).2) := Prod.ext h rfl
  obtain ⟨hnew, -, -, declaration, hdecl, hmade⟩ := generate_of_ok hgen
  -- with the declaration in it, a module knows the definition itself as well
  have hsigs : ∀ callee ∈ d.body.callees,
      (m.insert declaration).signature? callee = (m'.insert declaration).signature? callee := by
    intro callee hc
    rw [signature?_insert hnew hmade.name hmade.signature,
      signature?_insert hnew' hmade.name hmade.signature]
    by_cases hown : callee = d.proto.name
    · rw [hown, Program.ownSignatures, Program.ownSignatures, if_pos rfl, if_pos rfl]
    · rw [Program.ownSignatures, Program.ownSignatures, if_neg (Ne.symm hown), if_neg (Ne.symm hown)]
      exact hs callee hc hown
  obtain ⟨v, b, hv, -, hf⟩ := hmade.code
  have hv' := lower_serves (servesAll_of_signatures hmade.typed hsigs) hv
  have htyped' := hmade.typed.of_callees hsigs
  obtain ⟨v', b', hv'', -, -, hbody⟩ := lowerBody_of_typed htyped' hmade.ret hmade.bare hmade.signature
  obtain ⟨rfl, rfl⟩ := EStateM.Result.ok.inj (hv'.symm.trans hv'')
  rw [generate, if_neg (by rw [hnew']; decide), hdecl]
  simp only [hbody]
  rw [hf]

/-- Under any other name, a module means what it meant before a definition was added. -/
theorem get?_generate {name : String} (hname : name ≠ d.proto.name) :
    (m.generate d).2.get? name = m.get? name := by
  obtain ⟨e, hgen⟩ | ⟨f, m', hgen, hfunctions, hfname⟩ := generate_cases m d
  · rw [hgen]
  · rw [hgen, get?_of_functions_append hfunctions, if_neg, Option.or_none]
    intro hsame
    exact hname (hsame.symm.trans hfname)

theorem contains_eq_isSome (m : Module) (name : String) : m.contains name = (m.get? name).isSome := by
  rw [get?, contains, List.isSome_find?]

/-- The other definition makes no difference to one that does not call it. -/
theorem generate_after {d₁ d₂ : Definition} (hne : d₁.proto.name ≠ d₂.proto.name)
    (hcalls : d₂.proto.name ∉ d₁.body.callees) (f : Function) :
    ((m.generate d₂).2.generate d₁).1 = .ok f ↔ (m.generate d₁).1 = .ok f := by
  have hsigs : ∀ callee ∈ d₁.body.callees,
      (m.generate d₂).2.signature? callee = m.signature? callee := by
    intro callee hc
    rw [signature?, signature?, get?_generate]
    intro hsame
    exact hcalls (hsame ▸ hc)
  have hcontains : (m.generate d₂).2.contains d₁.proto.name = m.contains d₁.proto.name := by
    rw [contains_eq_isSome, contains_eq_isSome, get?_generate hne]
  constructor
  · intro h
    have hnew := (generate_of_ok (Prod.ext h rfl)).1
    rw [hcontains] at hnew
    exact generate_of_signatures hnew (fun callee hc _ => hsigs callee hc) h
  · intro h
    have hnew := (generate_of_ok (Prod.ext h rfl)).1
    rw [← hcontains] at hnew
    exact generate_of_signatures hnew (fun callee hc _ => (hsigs callee hc).symm) h

/-- **Definitions are compiled separately.**  Of a definition whose name is new to two modules, and whose
callees other than itself have the same signatures in both or are unknown to both, the same function
comes in both modules, or none in either.  So of two definitions with different names that do not call
each other, each becomes the same function whether it is added first or behind the other. -/
theorem generate_separately :
    (∀ (m m' : Module) (d : Definition), m.contains d.proto.name = false →
      m'.contains d.proto.name = false →
      (∀ callee ∈ d.body.callees, callee ≠ d.proto.name →
        m.signature? callee = m'.signature? callee) →
      ((∃ f, (m.generate d).1 = .ok f ∧ (m'.generate d).1 = .ok f) ∨
        ∃ e e', (m.generate d).1 = .error e ∧ (m'.generate d).1 = .error e')) ∧
    ∀ (m : Module) (d₁ d₂ : Definition), d₁.proto.name ≠ d₂.proto.name →
      d₂.proto.name ∉ d₁.body.callees → d₁.proto.name ∉ d₂.body.callees →
      (∀ f, ((m.generate d₂).2.generate d₁).1 = .ok f ↔ (m.generate d₁).1 = .ok f) ∧
        ∀ f, ((m.generate d₁).2.generate d₂).1 = .ok f ↔ (m.generate d₂).1 = .ok f := by
  refine ⟨fun m m' d hnew hnew' hs => ?_, fun m d₁ d₂ hne hcalls₁ hcalls₂ =>
    ⟨generate_after hne hcalls₁, generate_after (Ne.symm hne) hcalls₂⟩⟩
  cases h : (m.generate d).1 with
  | ok f => exact .inl ⟨f, rfl, generate_of_signatures hnew' hs h⟩
  | error e =>
    cases h' : (m'.generate d).1 with
    | error e' => exact .inr ⟨e, e', rfl, rfl⟩
    | ok f =>
      have hback := generate_of_signatures hnew (fun callee hc hown => (hs callee hc hown).symm) h'
      rw [h] at hback
      cases hback

/-- A definition that calls itself and `h`, which two modules have with one signature but different
bodies; and another definition that calls `h` as well, behind it or in front of it. -/
theorem generate_separately_beside :
    let m := ((Compiler.ofConfig {}).compile "def int h(int n) n * 2").2.module
    let m' := ((Compiler.ofConfig {}).compile "def double g() 1.5 def int h(int k) 7").2.module
    let int : Expr.Tag := ⟨.int, .nowhere⟩
    let n : Expr := .var "n" int
    let d₁ : Definition := ⟨⟨"f", [⟨"n", .int, .nowhere⟩], .int, .nowhere⟩,
      .conditional n (.call "h" [.call "f" [n] int] int) n int⟩
    let d₂ : Definition := ⟨⟨"k", [], .int, .nowhere⟩, .call "h" [.literal (.int 3) int] int⟩
    (m.contains "f" = false ∧ m'.contains "f" = false ∧ d₁.body.callees = ["h", "f"] ∧
      m.signature? "h" = m'.signature? "h" ∧ m.get? "h" ≠ m'.get? "h" ∧
      ∃ f, (m.generate d₁).1 = .ok f ∧ (m'.generate d₁).1 = .ok f) ∧
    "k" ∉ d₁.body.callees ∧ "f" ∉ d₂.body.callees ∧
      (∀ f, ((m.generate d₂).2.generate d₁).1 = .ok f ↔ (m.generate d₁).1 = .ok f) ∧
      ∀ f, ((m.generate d₁).2.generate d₂).1 = .ok f ↔ (m.generate d₂).1 = .ok f := by
  intro m m' int n d₁ d₂
  have hnew : m.contains "f" = false := by decide +kernel
  have hnew' : m'.contains "f" = false := by decide +kernel
  have hcallees : d₁.body.callees = ["h", "f"] := by decide +kernel
  have hsigs : ∀ callee ∈ d₁.body.callees, callee ≠ "f" →
      m.signature? callee = m'.signature? callee := by decide +kernel
  have haccepted : (m.generate d₁).1.isOk = true := by decide +kernel
  have hf : "k" ∉ d₁.body.callees := by decide +kernel
  have hk : "f" ∉ d₂.body.callees := by decide +kernel
  refine ⟨⟨hnew, hnew', hcallees, by decide +kernel, by decide +kernel, ?_⟩, hf, hk,
    generate_separately.2 m d₁ d₂ (by decide +kernel) hf hk⟩
  refine (generate_separately.1 m m' d₁ hnew hnew' hsigs).resolve_right fun hrefused => ?_
  obtain ⟨e, -, he, -⟩ := hrefused
  rw [he] at haccepted
  cases haccepted

end Module

end Ir

end ScalarLang
