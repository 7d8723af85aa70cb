import ScalarLang.Proofs.Closed
import ScalarLang.Proofs.Printing

/-!
# Moving places

Whatever stands in a source text says where it stands.  Moving the text moves these places and nothing
else: a function of spans is carried over to tokens, errors, expressions and outcomes.  If it keeps
stretches together, the typing rules follow it, and the functions that definitions are lowered to do not
depend on places at all.

* `Span.Carries` — a function of spans that keeps stretches together.
* `Token.move`, `Expr.move`, `Definition.move`, `InputError.move`, `Outcome.move` — what is moved.
* `Typing.call_move` and the lemmas beside it — the typing rules follow a move.
* `Ir.lower_move`, `Ir.Module.generate_move` — lowering does not see it.
-/

namespace ScalarLang

/-- The function keeps stretches together: the stretch between moved spans is the moved stretch. -/
def Span.Carries (φ : Span → Span) : Prop := ∀ a b : Span, φ (a.through b) = (φ a).through (φ b)

/-! ### What is moved -/

section Moves

variable (φ : Span → Span)

def LexError.move : LexError → LexError
  | malformedNumber text span => malformedNumber text (φ span)
  | integerOutOfRange text span => integerOutOfRange text (φ span)

def GrammarError.move : GrammarError → GrammarError
  | expectedToken expected found span => expectedToken expected found (φ span)
  | unexpectedToken found span => unexpectedToken found (φ span)
  | unsupportedOperator symbol span => unsupportedOperator symbol (φ span)

def TypeError.move : TypeError → TypeError
  | unknownVariable name span => unknownVariable name (φ span)
  | unknownFunction name span => unknownFunction name (φ span)
  | arityMismatch name expected found span => arityMismatch name expected found (φ span)
  | argumentType name index expected found span => argumentType name index expected found (φ span)
  | mixedOperands op lhs rhs span => mixedOperands op lhs rhs (φ span)
  | mixedBranches onTrue onFalse span => mixedBranches onTrue onFalse (φ span)
  | returnType name expected found span => returnType name expected found (φ span)
  | duplicateParameter function param span => duplicateParameter function param (φ span)
  | redefinition name span => redefinition name (φ span)

def InputError.move : InputError → InputError
  | lexical e => lexical (e.move φ)
  | grammar e => grammar (e.move φ)
  | typing e => typing (e.move φ)

def Token.move (t : Token) : Token := ⟨t.kind, φ t.span⟩

/-- A token or an error, moved. -/
def moveItem : Item → Item
  | .ok t => .ok (t.move φ)
  | .error e => .error (e.move φ)

def Expr.Tag.move (tag : Expr.Tag) : Expr.Tag := ⟨tag.ty, φ tag.span⟩

mutual

/-- The expression with the places of its nodes moved. -/
def Expr.move : Expr → Expr
  | .literal value tag => .literal value (tag.move φ)
  | .var name tag => .var name (tag.move φ)
  | .binary op lhs rhs tag => .binary op lhs.move rhs.move (tag.move φ)
  | .call callee args tag => .call callee (Expr.moveAll args) (tag.move φ)
  | .conditional condition onTrue onFalse tag =>
    .conditional condition.move onTrue.move onFalse.move (tag.move φ)

/-- The expressions of a list with the places of their nodes moved. -/
def Expr.moveAll : List Expr → List Expr
  | [] => []
  | e :: es => e.move :: Expr.moveAll es

end

def Param.move (p : Param) : Param := ⟨p.name, p.ty, φ p.span⟩

def Prototype.move (p : Prototype) : Prototype :=
  ⟨p.name, p.params.map (Param.move φ), p.ret, φ p.span⟩

def Definition.move (d : Definition) : Definition := ⟨d.proto.move φ, d.body.move φ⟩

def Context.move (ctx : Context) : Context :=
  ⟨ctx.signatures, ctx.scope, ctx.self?.map (Prototype.move φ)⟩

def Diagnostic.move (d : Diagnostic) : Diagnostic := { d with span? := d.span?.map φ }

/-- The outcome with the place of its diagnostic moved. -/
def Outcome.move : Outcome → Outcome
  | .failure d => .failure (d.move φ)
  | o => o

end Moves

variable {φ : Span → Span}

@[simp] theorem Token.kind_move (t : Token) : (t.move φ).kind = t.kind := rfl

@[simp] theorem Expr.ty_move (e : Expr) : (e.move φ).ty = e.ty := by
  cases e <;> rw [Expr.move] <;> rfl

@[simp] theorem Expr.span_move (e : Expr) : (e.move φ).span = φ e.span := by
  cases e <;> rw [Expr.move] <;> rfl

theorem Expr.moveAll_eq_map (es : List Expr) : Expr.moveAll φ es = es.map (Expr.move φ) := by
  induction es with
  | nil => rfl
  | cons e es ih => rw [moveAll, ih, List.map_cons]

@[simp] theorem Expr.length_moveAll (es : List Expr) : (Expr.moveAll φ es).length = es.length := by
  rw [moveAll_eq_map, List.length_map]

theorem InputError.toDiagnostic_move (e : InputError) :
    (CompileError.input (e.move φ)).toDiagnostic = (CompileError.input e).toDiagnostic.move φ := by
  cases e with
  | lexical e => cases e <;> rfl
  | grammar e => cases e <;> rfl
  | typing e => cases e <;> rfl

theorem Outcome.move_of_isSuccess {o : Outcome} (h : o.isSuccess = true) : o.move φ = o := by
  cases o with
  | failure d => cases h
  | _ => rfl

@[simp] theorem Prototype.signature_move (p : Prototype) : (p.move φ).signature = p.signature := by
  simp [signature, move, List.map_map, Function.comp_def, Param.move]

@[simp] theorem Context.signature?_move (ctx : Context) :
    (ctx.move φ).signature? = ctx.signature? := by
  funext name
  cases h : ctx.self? with
  | none => simp [signature?, move, h]
  | some p =>
    simp only [signature?, move, h, Option.map_some, Prototype.signature_move]
    rfl

/-! ### The typing rules -/

/-- A result of a typing rule, with the place of its error moved. -/
def moveError {α : Type} (φ : Span → Span) (r : Except TypeError α) : Except TypeError α :=
  r.mapError (TypeError.move φ)

namespace Typing

theorem var_move (ctx : Context) (name : String) (span : Span) :
    var (ctx.move φ) name (φ span) = moveError φ (var ctx name span) := by
  have hscope : (ctx.move φ).scope = ctx.scope := rfl
  rw [var, var, hscope]
  cases ctx.scope.lookup? name <;> rfl

theorem binary_move (hφ : Span.Carries φ) (op : Operator) (lhs rhs : Expr) :
    binary op (lhs.move φ) (rhs.move φ) = moveError φ (binary op lhs rhs) := by
  simp only [binary, Expr.ty_move, Expr.span_move, ← hφ lhs.span rhs.span]
  split <;> rfl

theorem arguments_move (callee : String) (index : Nat) (params : List NumType) (args : List Expr) :
    arguments callee index params (Expr.moveAll φ args) =
      moveError φ (arguments callee index params args) := by
  induction args generalizing index params with
  | nil => cases params <;> rfl
  | cons arg args ih =>
    cases params with
    | nil => rfl
    | cons expected params =>
      rw [Expr.moveAll, arguments, arguments, Expr.ty_move, Expr.span_move]
      split
      · exact ih (index + 1) params
      · rfl

theorem call_move (ctx : Context) (callee : String) (args : List Expr) (span : Span) :
    call (ctx.move φ) callee (Expr.moveAll φ args) (φ span) = moveError φ (call ctx callee args span) := by
  rw [call, call, Context.signature?_move]
  cases ctx.signature? callee with
  | none => rfl
  | some sig =>
    simp only [Expr.length_moveAll]
    split
    · rw [arguments_move]
      cases arguments callee 0 sig.params args <;> rfl
    · rfl

theorem conditional_move (hφ : Span.Carries φ) (onTrue onFalse : Expr) :
    conditional (onTrue.move φ) (onFalse.move φ) = moveError φ (conditional onTrue onFalse) := by
  simp only [conditional, Expr.ty_move, Expr.span_move, ← hφ onTrue.span onFalse.span]
  split <;> rfl

theorem definition_move (proto : Prototype) (body : Expr) :
    definition (proto.move φ) (body.move φ) = moveError φ (definition proto body) := by
  rw [definition, definition, Expr.ty_move, Expr.span_move]
  show (if body.ty = proto.ret then _ else _) = _
  split <;> rfl

end Typing

theorem Scope.ofPrototype_move (p : Prototype) :
    ofPrototype (p.move φ) = moveError φ (ofPrototype p) := by
  -- from any scope on
  have hfold : ∀ (params : List Param) (s : Scope),
      (params.map (Param.move φ)).foldlM (bind p.name) s =
        moveError φ (params.foldlM (bind p.name) s) := by
    intro params
    induction params with
    | nil => exact fun s => rfl
    | cons q params ih =>
      intro s
      rw [List.map_cons, List.foldlM_cons, List.foldlM_cons]
      by_cases h : (s.lookup? q.name).isSome
      · simp only [bind, Param.move, h, if_true]
        rfl
      · simp only [bind, Param.move, h]
        exact ih _
  exact hfold p.params {}

/-! ### Lowering -/

namespace Ir

variable {m m' : Module} {params : List ScalarLang.Param} {b b' : Builder} {v : Operand}

theorem parameterIndex?_move (params : List ScalarLang.Param) (name : String) :
    parameterIndex? (params.map (ScalarLang.Param.move φ)) name = parameterIndex? params name := by
  simp only [parameterIndex?, List.zipIdx_map, ← List.map_reverse, List.find?_map, Option.map_map]
  rfl

theorem lowerOp_move {tag : Expr.Tag} {l r : Operand} {op : Operator}
    (h : lowerOp tag l r op b = .ok v b') : lowerOp (tag.move φ) l r op b = .ok v b' := by
  obtain ⟨ty, span⟩ := tag
  cases ty with
  | unresolved => exact absurd h run_throw_ne_ok
  | int => exact h
  | double => exact h

theorem lowerCondition_move {condition : Expr} {value : Operand}
    (h : lowerCondition condition value b = .ok v b') :
    lowerCondition (condition.move φ) value b = .ok v b' := by
  unfold lowerCondition at h ⊢
  rw [Expr.ty_move]
  cases hty : condition.ty with
  | unresolved =>
    rw [hty] at h
    exact absurd h run_throw_ne_ok
  | int =>
    rw [hty] at h
    exact h
  | double =>
    rw [hty] at h
    exact h

/-- An expression that is lowered is lowered to the same instructions elsewhere. -/
theorem lower_move (m : Module) (params : List ScalarLang.Param) (e : Expr) :
    ∀ b v b', lower m params e b = .ok v b' →
      lower m (params.map (ScalarLang.Param.move φ)) (e.move φ) b = .ok v b' := by
  induction e using Expr.induct with
  | literal value tag =>
    intro b v b' h
    rw [Expr.move]
    obtain ⟨hty, hv⟩ := lower_literal_eq_ok_iff.1 h
    exact lower_literal_eq_ok_iff.2 ⟨hty, hv⟩
  | var name tag =>
    intro b v b' h
    rw [Expr.move, lower_var_eq_ok_iff, parameterIndex?_move]
    obtain ⟨hty, hv⟩ := lower_var_eq_ok_iff.1 h
    exact ⟨hty, hv⟩
  | binary op lhs rhs tag ihl ihr =>
    intro b v b' h
    obtain ⟨hty, l, b₁, r, b₂, hl, hr, htys, hv⟩ := lower_binary_eq_ok_iff.1 h
    rw [Expr.move, lower_binary_eq_ok_iff, Expr.ty_move, Expr.ty_move]
    exact ⟨hty, l, b₁, r, b₂, ihl _ _ _ hl, ihr _ _ _ hr, htys, lowerOp_move hv⟩
  | call callee args tag ih =>
    intro b v b' h
    -- the arguments one by one, from any point on
    have hargs : ∀ index targets b vs b', lowerArgs m params callee index args targets b = .ok vs b' →
        lowerArgs m (params.map (ScalarLang.Param.move φ)) callee index (Expr.moveAll φ args) targets b =
          .ok vs b' := by
      clear h
      induction args with
      | nil =>
        intro index targets b vs b' h
        rw [Expr.moveAll]
        cases targets <;> exact h
      | cons arg args ihs =>
        intro index targets b vs b' h
        rw [Expr.moveAll]
        cases targets with
        | nil => exact h
        | cons target targets =>
          obtain ⟨hty, v, b₁, vs', hv, hvs, rfl⟩ := lowerArgs_cons_eq_ok_iff.1 h
          rw [lowerArgs_cons_eq_ok_iff, Expr.ty_move]
          exact ⟨hty, v, b₁, vs', ih arg List.mem_cons_self _ _ _ hv,
            ihs (fun a ha => ih a (List.mem_cons_of_mem _ ha)) _ _ _ _ _ hvs, rfl⟩
    obtain ⟨hty, target, values, b₁, htarget, hlen, hvalues, hv⟩ := lower_call_eq_ok_iff.1 h
    rw [Expr.move, lower_call_eq_ok_iff, Expr.length_moveAll]
    exact ⟨hty, target, values, b₁, htarget, hlen, hargs _ _ _ _ _ hvalues, hv⟩
  | conditional condition onTrue onFalse tag ihc iht ihf =>
    intro b v b' h
    obtain ⟨ty, value, b₁, test, b₂, tv, b₃, fv, b₄, hty, hc, htest, htys, ht, hf, hv⟩ :=
      lower_conditional_eq_ok_iff.1 h
    rw [Expr.move, lower_conditional_eq_ok_iff, Expr.ty_move, Expr.ty_move]
    exact ⟨ty, value, b₁, test, b₂, tv, b₃, fv, b₄, hty, ihc _ _ _ hc, lowerCondition_move htest, htys,
      iht _ _ _ ht, ihf _ _ _ hf, hv⟩

theorem declare_move {p : Prototype} {f : Function} (h : declare p = .ok f) :
    declare (p.move φ) = .ok f := by
  have hparams : ∀ (params : List ScalarLang.Param) (ps : List Param), params.mapM lowerParam = .ok ps →
      (params.map (ScalarLang.Param.move φ)).mapM lowerParam = .ok ps := by
    intro params
    induction params with
    | nil => exact fun ps h => h
    | cons q params ih =>
      intro ps h
      rw [List.mapM_cons] at h
      obtain ⟨q', hq, h⟩ := bind_eq_ok_iff.1 h
      obtain ⟨qs, hqs, h⟩ := bind_eq_ok_iff.1 h
      obtain ⟨ty, hty, hq⟩ := bind_eq_ok_iff.1 hq
      rw [List.map_cons, List.mapM_cons]
      refine bind_eq_ok_iff.2 ⟨q', bind_eq_ok_iff.2 ⟨ty, ?_, hq⟩,
        bind_eq_ok_iff.2 ⟨qs, ih qs hqs, h⟩⟩
      exact lowerTy_eq_ok_iff.2 (lowerTy_eq_ok_iff.1 hty)
  obtain ⟨ps, hps, h⟩ := bind_eq_ok_iff.1 h
  obtain ⟨ret, hret, h⟩ := bind_eq_ok_iff.1 h
  exact bind_eq_ok_iff.2 ⟨ps, hparams _ _ hps,
    bind_eq_ok_iff.2 ⟨ret, lowerTy_eq_ok_iff.2 (lowerTy_eq_ok_iff.1 hret), h⟩⟩

/-- **A definition is lowered to the same function elsewhere.** -/
theorem Module.generate_move {d : Definition} {f : Function} (h : m.generate d = (.ok f, m')) :
    m.generate (d.move φ) = (.ok f, m') := by
  obtain ⟨hnew, declaration, hdecl, hbody, rfl⟩ := generate_eq_ok h
  have hnew' : ¬ m.contains (d.move φ).proto.name = true := by
    show ¬ m.contains d.proto.name = true
    rw [hnew]
    decide
  have hdecl' : declare (d.move φ).proto = .ok declaration := declare_move hdecl
  have hbody' : lowerBody (m.insert declaration) declaration (d.move φ) = .ok f := by
    obtain ⟨hret, v, b, hlow, hf, hverify⟩ := lowerBody_eq_ok_iff.1 hbody
    exact lowerBody_eq_ok_iff.2 ⟨d.body.ty_move.trans hret, v, b, lower_move _ _ _ _ _ _ hlow, hf, hverify⟩
  rw [generate, if_neg hnew', hdecl']
  simp only [hbody']

end Ir

end ScalarLang
