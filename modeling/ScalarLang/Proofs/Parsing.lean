import ScalarLang.Proofs.Fuel
import ScalarLang.Proofs.Printing
import ScalarLang.Proofs.Typed

/-!
# Reading what is written

A grouped tree that means a typed expression is read as that expression, wherever its tokens stand and
whatever stands behind them, as long as that does not go on with the tree.  The induction is on the tree,
and carries what operators do next: reading a tree and then folding operators onto it is folding them onto
what the tree means.

* `Context.Covers` — a context in which typed expressions can be read.
* `Concrete.Stops` — a token that does not go on with a tree.
* `Concrete.Readable`, `Concrete.Grouped.readable` — the induction.
* `Program.definition_of_consumes` — a definition is read from its tokens.
-/

namespace ScalarLang

open Token (Kind)

/-! ### Typing rules -/

/-- Names mean at least what the parameters say, and functions what the signatures say. -/
structure Context.Covers (params : List Param) (sigs : Signatures) (ctx : Context) : Prop where
  vars : ∀ name ty, paramTy? params name = some ty → ctx.scope.lookup? name = some ty
  calls : ∀ name sig, sigs name = some sig → ctx.signature? name = some sig

namespace Context.Covers

variable {params : List Param} {sigs : Signatures} {ctx : Context} {span : Span} {ty : NumType}

theorem var (h : ctx.Covers params sigs) {name : String} (hty : paramTy? params name = some ty) :
    Typing.var ctx name span = .ok ty := by
  rw [Typing.var, h.vars name ty hty]

theorem call (h : ctx.Covers params sigs) {callee : String} {args : List Expr}
    (hsig : sigs callee = some ⟨args.map Expr.ty, ty⟩) :
    Typing.call ctx callee args span = .ok ty := by
  have hlen : (args.map Expr.ty).length = args.length := List.length_map _
  simp only [Typing.call, h.calls _ _ hsig, hlen, if_true]
  rw [(arguments_eq_ok_iff hlen).2 rfl]

end Context.Covers

theorem Typing.binary_eq_ok {op : Operator} {lhs rhs : Expr} {ty : NumType} (hl : lhs.ty = ty)
    (hr : rhs.ty = ty) : Typing.binary op lhs rhs = .ok ty := by
  rw [binary, hl, hr, if_pos rfl, NumType.combine_self]

theorem Typing.conditional_eq_ok {onTrue onFalse : Expr} {ty : NumType} (ht : onTrue.ty = ty)
    (hf : onFalse.ty = ty) : Typing.conditional onTrue onFalse = .ok ty := by
  rw [conditional, ht, hf, if_pos rfl, NumType.combine_self]

/-! ### Trees -/

theorem exists_intercalate_cons {α : Type} (sep l : List α) (ls : List (List α)) :
    ∃ rest, sep.intercalate (l :: ls) = l ++ rest := by
  cases ls with
  | nil => exact ⟨[], by simp⟩
  | cons l' ls => exact ⟨_, by rw [List.intercalate_cons_cons, List.append_assoc]⟩

namespace Concrete

open Expr.Reader

variable {table : PrecedenceTable} {ctx : Context} {c c' : Cursor} {t : Concrete}

/-- The token being looked at does not go on with a tree that ends in front of it. -/
structure Stops (table : PrecedenceTable) (t : Concrete) (c : Cursor) : Prop where
  opens : c.current.kind ≠ .char '('
  ends : t.endsInConditional = true → c.precedence table < 0
  root : ∀ o, t.root? = some o → c.precedence table ≤ table.strength o

theorem Grouped.root_pos (h : t.Grouped table) {o : Operator} (ho : t.root? = some o) :
    0 < table.strength o := by
  cases h with
  | binary hop =>
    cases ho
    exact hop
  | _ => cases ho

/-- Where no operator binds, nothing goes on but a parenthesis. -/
theorem Grouped.stops (h : t.Grouped table) (hopens : c.current.kind ≠ .char '(')
    (hneg : c.precedence table < 0) : t.Stops table c :=
  ⟨hopens, fun _ => hneg, fun _ ho => hneg.le.trans (h.root_pos ho).le⟩

/-- A primary and the operators behind it that bind at least as tightly as `least`. -/
def level (table : PrecedenceTable) (ctx : Context) (least : Int) : Parse Expr := do
  let lhs ← primary table ctx
  operators table ctx least lhs

/-- Reading the tree and folding operators onto it is folding them onto what it means. -/
def Readable (table : PrecedenceTable) (ctx : Context) (t : Concrete) : Prop :=
  ∀ c c', c.final.kind = .eof → c.Consumes t.yield c' → t.Stops table c' →
    ∀ least, (∀ o, t.root? = some o → least ≤ table.strength o) →
      ∃ e : Expr, e.bare = t.erase.bare ∧ ∀ e' c'', operators table ctx least e c' = .ok e' c'' →
        level table ctx least c = .ok e' c''

/-- A tree that is read as a primary is readable. -/
theorem Readable.of_primary
    (h : ∀ c c', c.final.kind = .eof → c.Consumes t.yield c' → t.Stops table c' →
      ∃ e : Expr, e.bare = t.erase.bare ∧
        ReadsPrimary ctx (expression table ctx) (arguments table ctx) c e c') :
    t.Readable table ctx := by
  intro c c' hc ht hstop least _
  obtain ⟨e, he, hread⟩ := h c c' hc ht hstop
  refine ⟨e, he, fun e' c'' hops => ?_⟩
  rw [← primaryOf_eq_ok_iff, ← primary_eq hc] at hread
  exact run_bind_eq_ok_iff.2 ⟨e, c', hread, hops⟩

/-- A tree is read as a whole expression where no operator binds behind it. -/
theorem Readable.expression (h : t.Readable table ctx) (hg : t.Grouped table)
    (hc : c.final.kind = .eof) (ht : c.Consumes t.yield c') (hopens : c'.current.kind ≠ .char '(')
    (hneg : c'.precedence table < 0) :
    ∃ e : Expr, e.bare = t.erase.bare ∧ expression table ctx c = .ok e c' := by
  obtain ⟨e, he, hread⟩ := h c c' hc ht (hg.stops hopens hneg) 0 fun o ho => (hg.root_pos ho).le
  refine ⟨e, he, ?_⟩
  rw [expression_eq hc]
  exact hread e c' (operators_of_lt hneg)

/-- An operation is read by folding its operator onto the left operand. -/
theorem Readable.binary {op : Operator} {lhs rhs : Concrete} {tag : Expr.Tag}
    (hl : lhs.Readable table ctx) (hr : rhs.Readable table ctx)
    (hg : (Concrete.binary op lhs rhs tag).Grouped table)
    (hlty : lhs.erase.ty = tag.ty) (hrty : rhs.erase.ty = tag.ty) :
    (Concrete.binary op lhs rhs tag).Readable table ctx := by
  cases hg with
  | binary hop _ _ hlop hrop hend =>
    intro c c' hc ht hstop least hleast
    have hleast : least ≤ table.strength op := hleast op rfl
    have hafter : c'.precedence table ≤ table.strength op := hstop.root op rfl
    rw [yield] at ht
    obtain ⟨c₁, hlc, ht⟩ := ht.of_append
    obtain ⟨c₂, hopc, hrc⟩ := ht.of_cons
    have hc₁ : c₁.final.kind = .eof := hlc.final_eq ▸ hc
    have hc₂ : c₂.final.kind = .eof := Cursor.final_of_advance hopc.advance ▸ hc₁
    have hprec : c₁.precedence table = table.strength op := Cursor.precedence_of_operator hopc.kind
    have hlstop : lhs.Stops table c₁ := by
      refine ⟨?_, fun h => absurd h (Bool.eq_false_iff.1 hend), fun o ho => hprec ▸ hlop o ho⟩
      rw [hopc.kind]
      simp
    obtain ⟨l, hlbare, hlread⟩ := hl c c₁ hc hlc hlstop least fun o ho =>
      hleast.trans (hlop o ho)
    have hrstop : rhs.Stops table c' :=
      ⟨hstop.opens, hstop.ends, fun o ho => hafter.trans (hrop o ho).le⟩
    obtain ⟨r, hrbare, hrread⟩ := hr c₂ c' hc₂ hrc hrstop (table.strength op + 1) fun o ho =>
      Int.add_one_le_of_lt (hrop o ho)
    have hrange : level table ctx (table.strength op + 1) c₂ = .ok r c' :=
      hrread r c' (operators_of_lt (by omega))
    obtain ⟨first, c₃, hfirst, hrest⟩ := run_bind_eq_ok_iff.1 hrange
    refine ⟨.binary op l r ⟨tag.ty, l.span.through r.span⟩, ?_, fun e' c'' hops => ?_⟩
    · rw [erase, Expr.bare, Expr.bare, hlbare, hrbare]
      rfl
    · refine hlread e' c'' ?_
      rw [operators_eq hc₁, operatorsBy_eq_ok_iff (hprec ▸ hleast), hprec]
      refine ⟨op, c₂, first, c₃, r, c', tag.ty, hopc, hfirst, ?_, ?_, hops⟩
      · -- the reader does not ask for operators where there are none
        split
        · exact hrest
        · next hlt =>
          rw [operators_of_lt (by omega)] at hrest
          cases hrest
          exact ⟨rfl, rfl⟩
      · exact Typing.binary_eq_ok ((Expr.ty_eq_of_bare hlbare).trans hlty)
          ((Expr.ty_eq_of_bare hrbare).trans hrty)

/-- Every tree starts with a token that does not close a parenthesis. -/
theorem exists_yield_eq_cons : ∀ t : Concrete, ∃ kind kinds, t.yield = kind :: kinds ∧ kind ≠ .char ')'
  | .literal value _ => ⟨value.kind, [], by rw [yield], by cases value <;> simp [Literal.Value.kind]⟩
  | .var name _ => ⟨.identifier name, [], by rw [yield], by simp⟩
  | .binary op lhs rhs _ => by
    obtain ⟨kind, kinds, hlhs, hkind⟩ := exists_yield_eq_cons lhs
    exact ⟨kind, kinds ++ .operator op.symbol :: rhs.yield, by rw [yield, hlhs]; rfl, hkind⟩
  | .call callee _ _ => ⟨.identifier callee, _, by rw [yield], by simp⟩
  | .conditional _ _ _ _ => ⟨.kwIf, _, by rw [yield], by simp⟩
  | .paren _ => ⟨.char '(', _, by rw [yield], by simp⟩

/-- Arguments are read up to the closing parenthesis. -/
theorem arguments_of_consumes {ts : List Concrete} (hne : ts ≠ [])
    (hts : ∀ t ∈ ts, t.Grouped table ∧ t.Readable table ctx) (hc : c.final.kind = .eof)
    (h : c.Consumes ([.char ','].intercalate (ts.map yield)) c')
    (hclose : c'.current.kind = .char ')') :
    ∃ args : List Expr, args.map Expr.bare = ts.map (fun t => t.erase.bare) ∧
      arguments table ctx c = .ok args c' := by
  induction ts generalizing c with
  | nil => exact absurd rfl hne
  | cons t ts ih =>
    obtain ⟨⟨hg, hread⟩, hts⟩ := List.forall_mem_cons.1 hts
    cases ts with
    | nil =>
      rw [List.map_singleton, List.intercalate_singleton] at h
      obtain ⟨e, he, hexpr⟩ := hread.expression hg hc h (by simp [hclose]) (Cursor.precedence_neg_of_char hclose)
      refine ⟨[e], by simp [he], ?_⟩
      rw [arguments_eq hc, argumentsOf_eq_ok_iff]
      exact ⟨e, c', hexpr, by rw [if_pos hclose]; exact ⟨rfl, rfl⟩⟩
    | cons t' ts =>
      rw [List.map_cons, List.map_cons, List.intercalate_cons_cons, List.append_assoc] at h
      obtain ⟨c₁, ht, h⟩ := h.of_append
      obtain ⟨c₂, hcomma, h⟩ := h.of_cons
      have hc₁ : c₁.final.kind = .eof := ht.final_eq ▸ hc
      obtain ⟨e, he, hexpr⟩ := hread.expression hg hc ht (by simp [hcomma.kind])
        (Cursor.precedence_neg_of_char hcomma.kind)
      obtain ⟨args, hargs, hrest⟩ := ih (by simp) hts
        (Cursor.final_of_advance hcomma.advance ▸ hc₁) h
      refine ⟨e :: args, by simpa [he] using hargs, ?_⟩
      rw [arguments_eq hc, argumentsOf_eq_ok_iff]
      refine ⟨e, c₁, hexpr, ?_⟩
      rw [if_neg (by simp [hcomma.kind])]
      exact ⟨c₂, args, hcomma, hrest, rfl⟩

/-- Arguments are read if there are any. -/
theorem callArguments_of_consumes {ts : List Concrete}
    (hts : ∀ t ∈ ts, t.Grouped table ∧ t.Readable table ctx) (hc : c.final.kind = .eof)
    (h : c.Consumes ([.char ','].intercalate (ts.map yield)) c')
    (hclose : c'.current.kind = .char ')') :
    ∃ args : List Expr, args.map Expr.bare = ts.map (fun t => t.erase.bare) ∧
      if c.current.kind = .char ')' then args = [] ∧ c' = c
      else arguments table ctx c = .ok args c' := by
  cases ts with
  | nil =>
    cases h
    exact ⟨[], rfl, by rw [if_pos hclose]; exact ⟨rfl, rfl⟩⟩
  | cons t ts =>
    obtain ⟨args, hargs, hread⟩ := arguments_of_consumes (by simp) hts hc h hclose
    refine ⟨args, hargs, ?_⟩
    rw [if_neg, hread]
    -- the first argument starts with some other token
    obtain ⟨kind, kinds, hyield, hkind⟩ := t.exists_yield_eq_cons
    obtain ⟨rest, hrest⟩ := exists_intercalate_cons [Kind.char ','] t.yield (ts.map yield)
    rw [List.map_cons, hrest, hyield] at h
    obtain ⟨c₁, hfirst, -⟩ := h.of_cons
    rw [hfirst.kind]
    exact hkind

variable {params : List Param} {sigs : Signatures}

/-- **A grouped tree that means a typed expression is read as it.** -/
theorem Grouped.readable (h : t.Grouped table) (ht : t.erase.Typed params sigs)
    (hctx : ctx.Covers params sigs) : t.Readable table ctx := by
  induction h with
  | @literal value tag =>
    refine .of_primary fun c c' hc h hstop => ?_
    cases ht with
    | literal hty =>
      refine ⟨_, ?_, .literal h.of_singleton⟩
      rw [erase, Expr.bare, Expr.bare, Expr.Tag.bare, Expr.Tag.bare, hty]
  | @var name tag =>
    refine .of_primary fun c c' hc h hstop => ?_
    cases ht with
    | var hty hres =>
      exact ⟨.var name ⟨tag.ty, c.current.span⟩, rfl,
        .var h.of_singleton hstop.opens (hctx.var hty)⟩
  | @binary op lhs rhs tag hop hl hr hlop hrop hend ihl ihr =>
    rw [erase] at ht
    cases ht with
    | binary hlt hrt hlty hrty =>
      exact .binary (ihl hlt) (ihr hrt) (.binary hop hl hr hlop hrop hend) hlty hrty
  | @call callee ts tag hargs ih =>
    refine .of_primary fun c c' hc h hstop => ?_
    rw [erase, eraseAll_eq_map] at ht
    cases ht with
    | call hsig htyped hres =>
      rw [yield, yieldAll_eq_map] at h
      obtain ⟨c₁, hname, h⟩ := h.of_cons
      obtain ⟨c₂, hopen, h⟩ := h.of_cons
      obtain ⟨c₃, h, hclose⟩ := h.of_append
      have hclose := hclose.of_singleton
      have hc₁ : c₁.final.kind = .eof := Cursor.final_of_advance hname.advance ▸ hc
      obtain ⟨args, hbare, hread⟩ := callArguments_of_consumes
        (fun t hmem => ⟨hargs t hmem, ih t hmem (htyped _ (List.mem_map_of_mem hmem))⟩)
        (Cursor.final_of_advance hopen.advance ▸ hc₁) h hclose.kind
      have htys : args.map Expr.ty = (ts.map erase).map Expr.ty := by
        have := congrArg (List.map Expr.ty) hbare
        simpa [List.map_map, Function.comp_def, Expr.ty_bare] using this
      refine ⟨.call callee args ⟨tag.ty, _⟩, ?_,
        .call hname hopen hread hclose (hctx.call (htys ▸ hsig))⟩
      rw [erase, eraseAll_eq_map, Expr.bare, Expr.bare, Expr.bareAll_eq_map, Expr.bareAll_eq_map,
        hbare, List.map_map]
      rfl
  | @paren inner hg ih =>
    refine .of_primary fun c c' hc h hstop => ?_
    rw [yield] at h
    obtain ⟨c₁, hopen, h⟩ := h.of_cons
    obtain ⟨c₂, h, hclose⟩ := h.of_append
    have hclose := hclose.of_singleton
    obtain ⟨e, he, hexpr⟩ := (ih ht).expression hg (Cursor.final_of_advance hopen.advance ▸ hc) h
      (by simp [hclose.kind]) (Cursor.precedence_neg_of_char hclose.kind)
    exact ⟨e, he, .paren hopen hexpr hclose⟩
  | @conditional condition onTrue onFalse tag hgc hgt hgf ihc iht ihf =>
    refine .of_primary fun c c' hc h hstop => ?_
    rw [erase] at ht
    cases ht with
    | conditional hct htt hft htty hfty =>
      rw [yield] at h
      obtain ⟨c₁, hif, h⟩ := h.of_cons
      obtain ⟨c₂, hcond, h⟩ := h.of_append
      obtain ⟨c₃, hthen, h⟩ := h.of_cons
      obtain ⟨c₄, htrue, h⟩ := h.of_append
      obtain ⟨c₅, helse, hfalse⟩ := h.of_cons
      have hc₁ : c₁.final.kind = .eof := Cursor.final_of_advance hif.advance ▸ hc
      have hc₂ : c₂.final.kind = .eof := hcond.final_eq ▸ hc₁
      have hc₃ : c₃.final.kind = .eof := Cursor.final_of_advance hthen.advance ▸ hc₂
      have hc₄ : c₄.final.kind = .eof := htrue.final_eq ▸ hc₃
      have hc₅ : c₅.final.kind = .eof := Cursor.final_of_advance helse.advance ▸ hc₄
      obtain ⟨e₁, he₁, hread₁⟩ := (ihc hct).expression hgc hc₁ hcond (by simp [hthen.kind])
        (Cursor.precedence_neg_of_ne (by simp [hthen.kind]))
      obtain ⟨e₂, he₂, hread₂⟩ := (iht htt).expression hgt hc₃ htrue (by simp [helse.kind])
        (Cursor.precedence_neg_of_ne (by simp [helse.kind]))
      obtain ⟨e₃, he₃, hread₃⟩ := (ihf hft).expression hgf hc₅ hfalse hstop.opens (hstop.ends rfl)
      refine ⟨.conditional e₁ e₂ e₃ ⟨tag.ty, _⟩, ?_,
        .conditional hif hread₁ hthen hread₂ helse hread₃ (Typing.conditional_eq_ok
          ((Expr.ty_eq_of_bare he₂).trans htty) ((Expr.ty_eq_of_bare he₃).trans hfty))⟩
      rw [erase, Expr.bare, Expr.bare, he₁, he₂, he₃]
      rfl

end Concrete

/-! ### Definitions -/

theorem Cursor.Consumes.below_of_cons {c c' : Cursor} {kind : Kind} {kinds : List Kind} {n : Nat}
    (h : c.Consumes (kind :: kinds) c') (hk : kind ≠ .eof) (hc : c.Below (n + 1)) : c'.Below n := by
  obtain ⟨c₁, hfirst, hrest⟩ := h.of_cons
  exact hrest.keeps_below (hc.of_advance (hfirst.kind ▸ hk) hfirst.advance)

namespace Program

open Parse

variable {c c' : Cursor} {what : String} {n : Nat}

theorem type_of_consumes {ty : NumType} (hres : ty.isResolved) (h : c.Consumes ty.tokens c') :
    type what c = .ok ty c' := by
  refine run_bind_eq_ok_iff.2 ⟨c, c, rfl, ?_⟩
  cases ty with
  | unresolved => cases hres
  | int =>
    have h := h.of_singleton
    simp only [h.kind]
    exact run_bind_eq_ok_iff.2 ⟨(), c', h.advance, rfl⟩
  | double =>
    have h := h.of_singleton
    simp only [h.kind]
    exact run_bind_eq_ok_iff.2 ⟨(), c', h.advance, rfl⟩

theorem name_of_takes {n : String} (h : c.Takes (.identifier n) c') :
    name what c = .ok (n, c.current.span) c' := by
  refine run_bind_eq_ok_iff.2 ⟨c, c, rfl, ?_⟩
  simp only [h.kind]
  exact run_bind_eq_ok_iff.2 ⟨(), c', h.advance, rfl⟩

theorem parameter_of_consumes {p : Param} (hres : p.ty.isResolved) (h : c.Consumes p.tokens c') :
    ∃ p' : Param, p'.bare = p.bare ∧ parameter c = .ok p' c' := by
  obtain ⟨c₁, hty, hname⟩ := h.of_append
  have hname := hname.of_singleton
  refine ⟨⟨p.name, p.ty, c.current.span.through c₁.current.span⟩, rfl, ?_⟩
  simp only [parameter, run_bind_eq_ok_iff, run_pure_eq_ok_iff, run_get_eq_ok_iff]
  exact ⟨c, c, ⟨rfl, rfl⟩, p.ty, c₁, type_of_consumes hres hty, (p.name, c₁.current.span), c',
    name_of_takes hname, rfl, rfl⟩

/-- A resolved type is named by one token. -/
theorem exists_tokens_eq {ty : NumType} (hres : ty.isResolved) :
    ∃ kind, ty.tokens = [kind] ∧ kind ≠ .eof ∧ kind ≠ .char ')' := by
  cases ty with
  | unresolved => cases hres
  | int => exact ⟨.kwInt, rfl, by simp, by simp⟩
  | double => exact ⟨.kwDouble, rfl, by simp, by simp⟩

/-- A parameter moves the cursor. -/
theorem below_of_parameter {p : Param} (hres : p.ty.isResolved) (h : c.Consumes p.tokens c')
    (hc : c.Below (n + 1)) : c'.Below n := by
  obtain ⟨kind, hkind, heof, -⟩ := exists_tokens_eq hres
  rw [Param.tokens, hkind] at h
  exact h.below_of_cons heof hc

theorem parametersFor_of_consumes {ps : List Param} (hne : ps ≠ [])
    (hres : ∀ p ∈ ps, p.ty.isResolved) (hc : c.Below (n + 1))
    (h : c.Consumes ([.char ','].intercalate (ps.map Param.tokens)) c')
    (hclose : c'.current.kind = .char ')') :
    ∃ ps' : List Param, ps'.map Param.bare = ps.map Param.bare ∧ parametersFor n c = .ok ps' c' := by
  induction ps generalizing c n with
  | nil => exact absurd rfl hne
  | cons p ps ih =>
    obtain ⟨hp, hps⟩ := List.forall_mem_cons.1 hres
    cases ps with
    | nil =>
      rw [List.map_singleton, List.intercalate_singleton] at h
      obtain ⟨p', hp', hread⟩ := parameter_of_consumes hp h
      have hc' := below_of_parameter hp h hc
      cases n with
      | zero => exact absurd hc'.lt (Nat.not_lt_zero _)
      | succ n =>
        refine ⟨[p'], by simp [hp'], ?_⟩
        rw [parametersFor]
        refine run_bind_eq_ok_iff.2 ⟨p', c', hread, ?_⟩
        rw [run_get_bind, if_neg (by simp [Cursor.atChar?_eq_true_iff, hclose])]
        rfl
    | cons q ps =>
      rw [List.map_cons, List.map_cons, List.intercalate_cons_cons, List.append_assoc] at h
      obtain ⟨c₁, hpc, h⟩ := h.of_append
      obtain ⟨c₂, hcomma, h⟩ := h.of_cons
      obtain ⟨p', hp', hread⟩ := parameter_of_consumes hp hpc
      have hc₁ := below_of_parameter hp hpc hc
      cases n with
      | zero => exact absurd hc₁.lt (Nat.not_lt_zero _)
      | succ n =>
        have hc₂ : c₂.Below (n + 1) := (Cursor.Consumes.cons hcomma .nil).keeps_below hc₁
        obtain ⟨ps', hps', hrest⟩ := ih (by simp) hps hc₂ h
        refine ⟨p' :: ps', by simpa [hp'] using hps', ?_⟩
        rw [parametersFor]
        refine run_bind_eq_ok_iff.2 ⟨p', c₁, hread, ?_⟩
        rw [run_get_bind, if_pos (Cursor.atChar?_eq_true_iff.2 hcomma.kind)]
        refine run_bind_eq_ok_iff.2 ⟨(), c₂, hcomma.advance, ?_⟩
        exact run_bind_eq_ok_iff.2 ⟨ps', c', hrest, rfl⟩

/-- Parameters are read if there are any. -/
theorem parameters_of_consumes {ps : List Param} (hres : ∀ p ∈ ps, p.ty.isResolved)
    (hc : c.final.kind = .eof) (h : c.Consumes ([.char ','].intercalate (ps.map Param.tokens)) c')
    (hclose : c'.current.kind = .char ')') :
    ∃ ps' : List Param, ps'.map Param.bare = ps.map Param.bare ∧
      (if c.atChar? ')' then pure [] else parameters) c = .ok ps' c' := by
  cases ps with
  | nil =>
    cases h
    exact ⟨[], rfl, by rw [if_pos (Cursor.atChar?_eq_true_iff.2 hclose)]; rfl⟩
  | cons p ps =>
    obtain ⟨ps', hps', hread⟩ := parametersFor_of_consumes (by simp) hres
      (Cursor.below_of_final hc) h hclose
    refine ⟨ps', hps', ?_⟩
    rw [if_neg]
    · exact hread
    -- the first parameter starts with its type
    · obtain ⟨kind, hkind, -, hne⟩ := exists_tokens_eq (hres p List.mem_cons_self)
      obtain ⟨rest, hrest⟩ := exists_intercalate_cons [Kind.char ','] p.tokens (ps.map Param.tokens)
      rw [List.map_cons, hrest, Param.tokens, hkind] at h
      obtain ⟨c₁, hfirst, -⟩ := h.of_cons
      rw [Cursor.atChar?_eq_true_iff, hfirst.kind]
      exact hne

theorem prototype_of_consumes {p : Prototype} (hret : p.ret.isResolved)
    (hres : ∀ q ∈ p.params, q.ty.isResolved) (hc : c.final.kind = .eof)
    (h : c.Consumes p.tokens c') :
    ∃ p' : Prototype, p'.bare = p.bare ∧ prototype c = .ok p' c' := by
  obtain ⟨c₁, hty, h⟩ := h.of_append
  obtain ⟨c₂, hname, h⟩ := h.of_cons
  obtain ⟨c₃, hopen, h⟩ := h.of_cons
  obtain ⟨c₄, h, hclose⟩ := h.of_append
  have hclose := hclose.of_singleton
  have hc₃ : c₃.final.kind = .eof := by
    rw [Cursor.final_of_advance hopen.advance, Cursor.final_of_advance hname.advance, hty.final_eq, hc]
  obtain ⟨ps, hps, hread⟩ := parameters_of_consumes hres hc₃ h hclose.kind
  refine ⟨⟨p.name, ps, p.ret, c.current.span.through c₄.current.span⟩, ?_, ?_⟩
  · rw [Prototype.bare, Prototype.bare, hps]
  · refine run_bind_eq_ok_iff.2 ⟨c, c, rfl, ?_⟩
    refine run_bind_eq_ok_iff.2 ⟨p.ret, c₁, type_of_consumes hret hty, ?_⟩
    refine run_bind_eq_ok_iff.2 ⟨_, c₂, name_of_takes hname, ?_⟩
    refine run_bind_eq_ok_iff.2 ⟨_, c₃, expectChar_eq_ok_iff.2 ⟨rfl, hopen⟩, ?_⟩
    refine run_bind_eq_ok_iff.2 ⟨c₃, c₃, rfl, ?_⟩
    rw [← ite_bind]
    refine run_bind_eq_ok_iff.2 ⟨ps, c₄, hread, ?_⟩
    exact run_bind_eq_ok_iff.2 ⟨_, c', expectChar_eq_ok_iff.2 ⟨rfl, hclose⟩, rfl⟩

/-- Parameters with distinct names make up a scope. -/
theorem foldlM_bind_of_nodup {function : String} {params : List Param} {known : List (String × NumType)}
    (h : (known.map Prod.fst ++ params.map Param.name).Nodup) :
    params.foldlM (Scope.bind function) ⟨known⟩ =
      .ok ⟨known ++ params.map fun p => (p.name, p.ty)⟩ := by
  induction params generalizing known with
  | nil => simp [pure, Except.pure]
  | cons p params ih =>
    have hnew : ((⟨known⟩ : Scope).lookup? p.name).isSome = false := by
      rw [Bool.eq_false_iff, Scope.lookup?, ne_eq, List.lookup_isSome_iff]
      rintro ⟨q, hq, hname⟩
      rw [List.map_cons, List.nodup_append] at h
      exact h.2.2 q.1 (List.mem_map_of_mem hq) p.name List.mem_cons_self (eq_of_beq hname).symm
    rw [List.foldlM_cons, Scope.bind, hnew]
    show params.foldlM (Scope.bind function) ⟨known ++ [(p.name, p.ty)]⟩ = _
    rw [ih (by simpa using h)]
    simp

theorem ofPrototype_of_nodup {p : Prototype} (h : (p.params.map Param.name).Nodup) :
    Scope.ofPrototype p = .ok ⟨p.params.map fun q => (q.name, q.ty)⟩ :=
  @foldlM_bind_of_nodup p.name p.params [] h

/-- In a scope of parameters with distinct names, a name means the parameter of that name. -/
theorem lookup_of_paramTy? {params : List Param} (hn : (params.map Param.name).Nodup) {name : String}
    {ty : NumType} (h : paramTy? params name = some ty) :
    (params.map fun q => (q.name, q.ty)).lookup name = some ty := by
  obtain ⟨p, hp, rfl, rfl⟩ := (paramTy?_eq_some_iff hn).1 h
  have hsome : ((params.map fun q => (q.name, q.ty)).lookup p.name).isSome := by
    rw [List.lookup_isSome_iff]
    exact ⟨(p.name, p.ty), List.mem_map_of_mem hp, beq_self_eq_true _⟩
  obtain ⟨ty, hty⟩ := Option.isSome_iff_exists.1 hsome
  obtain ⟨q, hq, hname, rfl⟩ := mem_of_lookup? hty
  rw [hty, List.inj_on_of_nodup_map hn hq hp hname]

/-- **A definition is read from its tokens.** -/
theorem definition_of_consumes {table : PrecedenceTable} {sigs : Signatures} {d : Definition}
    (htable : ∀ op, 0 < table.strength op) (hd : d.Typed (ownSignatures sigs d.proto))
    (hc : c.final.kind = .eof) (h : c.Consumes (d.tokens table) c')
    (hopens : c'.current.kind ≠ .char '(') (hneg : c'.precedence table < 0) :
    ∃ d' : Definition, d'.bare = d.bare ∧ definition table sigs c = .ok d' c' := by
  obtain ⟨c₁, hdef, h⟩ := h.of_cons
  obtain ⟨c₂, hproto, hbody⟩ := h.of_append
  have hc₁ : c₁.final.kind = .eof := Cursor.final_of_advance hdef.advance ▸ hc
  obtain ⟨proto, hbare, hread⟩ := prototype_of_consumes (hd.ret ▸ hd.body.resolved) hd.params hc₁
    hproto
  have hname : proto.name = d.proto.name := by
    show proto.bare.name = d.proto.bare.name
    rw [hbare]
  have hret : proto.ret = d.proto.ret := by
    show proto.bare.ret = d.proto.bare.ret
    rw [hbare]
  have hsig : proto.signature = d.proto.signature := by
    rw [Prototype.signature, Prototype.signature, hret,
      Prototype.map_params_of_bare hbare Param.ty fun _ => rfl]
  have hscope : Scope.ofPrototype proto = .ok ⟨d.proto.params.map fun q => (q.name, q.ty)⟩ := by
    rw [ofPrototype_of_nodup, Prototype.map_params_of_bare hbare (fun q => (q.name, q.ty)) fun _ => rfl]
    rw [Prototype.map_params_of_bare hbare Param.name fun _ => rfl]
    exact hd.names
  have hctx : (⟨sigs, ⟨d.proto.params.map fun q => (q.name, q.ty)⟩, some proto⟩ : Context).Covers
      d.proto.params (ownSignatures sigs d.proto) := by
    refine ⟨fun name ty hty => lookup_of_paramTy? hd.names hty, fun name sig h => ?_⟩
    rw [ownSignatures] at h
    rw [Context.signature?]
    simp only [hname, hsig, h]
  obtain ⟨body, hbody', hexpr⟩ := ((d.body.grouped_toConcrete htable).readable
    ((d.body.erase_toConcrete table).symm ▸ hd.body) hctx).expression
    (d.body.grouped_toConcrete htable) (hproto.final_eq ▸ hc₁) hbody hopens hneg
  rw [d.body.erase_toConcrete table] at hbody'
  refine ⟨⟨proto, body⟩, ?_, ?_⟩
  · rw [Definition.bare, Definition.bare, hbare, hbody']
  · have hty : body.ty = proto.ret := by
      rw [Expr.ty_eq_of_bare hbody', hd.ret, hret]
    refine run_bind_eq_ok_iff.2 ⟨_, c₁, (expect_eq_ok_iff rfl).2 ⟨rfl, hdef⟩, ?_⟩
    refine run_bind_eq_ok_iff.2 ⟨proto, c₂, hread, ?_⟩
    refine run_bind_eq_ok_iff.2 ⟨_, c₂, check_eq_ok_iff.2 ⟨hscope, rfl⟩, ?_⟩
    refine run_bind_eq_ok_iff.2 ⟨body, c', hexpr, ?_⟩
    exact run_bind_eq_ok_iff.2 ⟨(), c', check_eq_ok_iff.2 ⟨if_pos hty, rfl⟩, rfl⟩

end Program

end ScalarLang
