import ScalarLang.Proofs.Typed

/-!
# Types by derivation

The types that the nodes of an expression carry were given to it while it was read.  The rules can be
told without them: from the parameters and the signatures they derive a type for an expression, and one
only.  An expression is typed exactly if every node carries the type that is derived for it, and
everything that is read is so.

* `Expr.parts`, `Expr.Node` — the nodes of an expression.
* `Expr.Derives` — the rules, whatever types the nodes carry.
* `Expr.Derives.unique` — at most one type is derived.
* `Expr.typed_iff` — an expression is typed if every node carries what is derived for it.
* `Definition.Derived`, `Program.read_derived` — every unit that is read is so, at every node.
-/

namespace ScalarLang

namespace Expr

/-! ### Nodes -/

/-- The expressions that an expression is made of. -/
def parts : Expr → List Expr
  | literal _ _ => []
  | var _ _ => []
  | binary _ lhs rhs _ => [lhs, rhs]
  | call _ args _ => args
  | conditional condition onTrue onFalse _ => [condition, onTrue, onFalse]

/-- The expression `n` is a node of `e`: `e` itself, or a node of one of its parts. -/
inductive Node : Expr → Expr → Prop
  | root (e : Expr) : Node e e
  | part {e p n : Expr} (hp : p ∈ e.parts) (hn : Node p n) : Node e n

variable {params : List Param} {sigs : Signatures} {e n : Expr}

theorem Typed.part (h : e.Typed params sigs) {p : Expr} (hp : p ∈ e.parts) : p.Typed params sigs := by
  cases h with
  | literal _ => cases hp
  | var _ _ => cases hp
  | binary hl hr _ _ =>
    rcases List.mem_cons.1 hp with rfl | hp
    · exact hl
    · exact List.mem_singleton.1 hp ▸ hr
  | call _ hargs _ => exact hargs p hp
  | conditional hc ht hf _ _ =>
    rcases List.mem_cons.1 hp with rfl | hp
    · exact hc
    · rcases List.mem_cons.1 hp with rfl | hp
      · exact ht
      · exact List.mem_singleton.1 hp ▸ hf

/-- All nodes of a typed expression are typed. -/
theorem Typed.node (h : e.Typed params sigs) (hn : e.Node n) : n.Typed params sigs := by
  induction hn with
  | root e => exact h
  | part hp _ ih => exact ih (h.part hp)

/-! ### The rules -/

/-- The rules by which an expression gets its type.  The types that its nodes carry do not count. -/
inductive Derives (params : List Param) (sigs : Signatures) : Expr → NumType → Prop
  | literal (value : Literal.Value) (tag : Tag) :
      Derives params sigs (.literal value tag) (Typing.literal value)
  | var {name : String} {tag : Tag} {ty : NumType} (h : paramTy? params name = some ty) :
      Derives params sigs (.var name tag) ty
  | binary {op : Operator} {lhs rhs : Expr} {tag : Tag} {ty : NumType}
      (hl : Derives params sigs lhs ty) (hr : Derives params sigs rhs ty) :
      Derives params sigs (.binary op lhs rhs tag) ty
  | call {callee : String} {args : List Expr} {tag : Tag} {tys : List NumType} {ty : NumType}
      (h : sigs callee = some ⟨tys, ty⟩) (hlen : args.length = tys.length)
      (hargs : ∀ p ∈ args.zip tys, Derives params sigs p.1 p.2) :
      Derives params sigs (.call callee args tag) ty
  | conditional {condition onTrue onFalse : Expr} {tag : Tag} {cty ty : NumType}
      (hc : Derives params sigs condition cty) (ht : Derives params sigs onTrue ty)
      (hf : Derives params sigs onFalse ty) :
      Derives params sigs (.conditional condition onTrue onFalse tag) ty

/-- **At most one type is derived for an expression.** -/
theorem Derives.unique {a b : NumType} (ha : e.Derives params sigs a)
    (hb : e.Derives params sigs b) : a = b := by
  induction ha generalizing b with
  | literal value tag =>
    cases hb with
    | literal _ _ => rfl
  | var h =>
    cases hb with
    | var h' => exact Option.some.inj (h.symm.trans h')
  | binary _ _ ihl _ =>
    cases hb with
    | binary hl' _ => exact ihl hl'
  | call h _ _ _ =>
    cases hb with
    | call h' _ _ => exact congrArg Signature.ret (Option.some.inj (h.symm.trans h'))
  | conditional _ _ _ _ iht _ =>
    cases hb with
    | conditional _ ht' _ => exact iht ht'

/-- What a typed expression carries is derived for it. -/
theorem Typed.derives (h : e.Typed params sigs) : e.Derives params sigs e.ty := by
  induction h with
  | @literal value tag h =>
    show Derives params sigs (.literal value tag) tag.ty
    rw [h]
    exact .literal value tag
  | var h _ => exact .var h
  | binary _ _ hlty hrty ihl ihr =>
    rw [hlty] at ihl
    rw [hrty] at ihr
    exact .binary ihl ihr
  | call h _ _ ih =>
    refine .call h (List.length_map _).symm fun p hp => ?_
    rw [← List.map_prod_left_eq_zip] at hp
    obtain ⟨a, ha, rfl⟩ := List.mem_map.1 hp
    exact ih a ha
  | conditional _ _ _ htty hfty ihc iht ihf =>
    rw [htty] at iht
    rw [hfty] at ihf
    exact .conditional ihc iht ihf

/-- Arguments that carry what is derived for them carry the types of the parameters. -/
theorem map_ty_of_derives {args : List Expr} {tys : List NumType} (hlen : args.length = tys.length)
    (hargs : ∀ p ∈ args.zip tys, p.1.Derives params sigs p.2)
    (hown : ∀ a ∈ args, a.Derives params sigs a.ty) : args.map ty = tys := by
  induction args generalizing tys with
  | nil => exact (List.length_eq_zero_iff.1 hlen.symm).symm
  | cons a args ih =>
    cases tys with
    | nil => cases hlen
    | cons t tys =>
      have hhead : a.ty = t := (hown a List.mem_cons_self).unique (hargs (a, t) List.mem_cons_self)
      have htail : args.map ty = tys := ih (Nat.succ.inj hlen)
        (fun p hp => hargs p (List.mem_cons_of_mem _ hp)) fun a' ha' => hown a' (List.mem_cons_of_mem a ha')
      rw [List.map_cons, hhead, htail]

/-- **An expression is typed exactly if every node carries a resolved type that is derived for it.** -/
theorem typed_iff : e.Typed params sigs ↔
    ∀ n, e.Node n → n.ty.isResolved ∧ n.Derives params sigs n.ty := by
  constructor
  · intro h n hn
    exact ⟨(h.node hn).resolved, (h.node hn).derives⟩
  · intro h
    induction e using Expr.induct with
    | literal value tag => exact .literal ((h _ (.root _)).2.unique (.literal value tag))
    | var name tag =>
      obtain ⟨hres, hroot⟩ := h _ (.root _)
      cases hroot with
      | var hname => exact .var hname hres
    | binary op lhs rhs tag ihl ihr =>
      have hl := ihl fun n hn => h n (.part (by simp [parts]) hn)
      have hr := ihr fun n hn => h n (.part (by simp [parts]) hn)
      cases (h _ (.root _)).2 with
      | binary hl' hr' => exact .binary hl hr (hl.derives.unique hl') (hr.derives.unique hr')
    | call callee args tag ih =>
      have hargs : ∀ a ∈ args, a.Typed params sigs := fun a ha =>
        ih a ha fun n hn => h n (.part ha hn)
      obtain ⟨hres, hroot⟩ := h _ (.root _)
      cases hroot with
      | call hsig hlen hzip =>
        have htys := map_ty_of_derives hlen hzip fun a ha => (hargs a ha).derives
        rw [← htys] at hsig
        exact .call hsig hargs hres
    | conditional condition onTrue onFalse tag ihc iht ihf =>
      have hc := ihc fun n hn => h n (.part (by simp [parts]) hn)
      have ht := iht fun n hn => h n (.part (by simp [parts]) hn)
      have hf := ihf fun n hn => h n (.part (by simp [parts]) hn)
      cases (h _ (.root _)).2 with
      | conditional _ ht' hf' =>
        exact .conditional hc ht hf (ht.derives.unique ht') (hf.derives.unique hf')

end Expr

/-! ### Definitions -/

/-- A definition whose parameters have distinct names, whose body carries a type of numbers at every
node, and there the one type that is derived, and whose body has the result type. -/
structure Definition.Derived (sigs : Signatures) (d : Definition) : Prop where
  names : (d.proto.params.map Param.name).Nodup
  nodes : ∀ n, d.body.Node n → (n.ty = .int ∨ n.ty = .double) ∧
    ∀ ty, n.Derives d.proto.params sigs ty ↔ ty = n.ty
  ret : d.body.ty = d.proto.ret

theorem NumType.eq_int_or_double {ty : NumType} (h : ty.isResolved) : ty = .int ∨ ty = .double := by
  cases ty with
  | unresolved => cases h
  | int => exact .inl rfl
  | double => exact .inr rfl

theorem Definition.Typed.derived {sigs : Signatures} {d : Definition} (h : d.Typed sigs) :
    d.Derived sigs := by
  refine ⟨h.names, fun n hn => ?_, h.ret⟩
  obtain ⟨hres, hown⟩ := Expr.typed_iff.1 h.body n hn
  refine ⟨NumType.eq_int_or_double hres, fun ty => ⟨fun hty => hty.unique hown, ?_⟩⟩
  intro hty
  rw [hty]
  exact hown

/-- **Whatever is read carries the types that are derived for it.**  With any table of precedences, any
signatures with resolved result types, and from any place in any text: the body of a definition carries
at every node the type that the rules derive from its parameters, its own signature, which hides another
of its name, and the signatures in force.  So does an expression on its own, which has no parameters and
no signature of its own, and is an `int`. -/
theorem Program.read_derived (table : PrecedenceTable) {sigs : Signatures} (hs : Resolved sigs) :
    (∀ c d c', definition table sigs c = .ok d c' → d.Derived (ownSignatures sigs d.proto)) ∧
      ∀ c d c', topLevel table sigs c = .ok d c' →
        d.Derived sigs ∧ d.proto.params = [] ∧ d.body.ty = .int := by
  have hstable : Cursor.Stable fun _ => True := fun _ _ => trivial
  constructor
  · intro c d c' h
    exact ((definition_reads hstable table hs fun _ _ _ _ => trivial).ok trivial h).2.1.derived
  · intro c d c' h
    obtain ⟨-, hd, span, hproto⟩ := (topLevel_reads hstable table hs).ok trivial h
    refine ⟨hd.derived, ?_, ?_⟩
    · rw [hproto]
      rfl
    · rw [hd.ret, hproto]
      rfl

/-- A function that halves, and one that is hidden by a definition of its name. -/
def Program.halving : Signatures := fun name =>
  if name = "half" then some ⟨[.double], .double⟩
  else if name = "f" then some ⟨[], .double⟩ else none

/-- A definition that calls itself, while the signatures in force have another function of its name. -/
theorem Program.read_derived_hiding :
    Resolved halving ∧ ∃ c d c', Parse.advance (Cursor.ofText
        "def int f(int n, double x) if half(x) < 1.0 then n + 2 * n else f(n - 1, half(x))") = .ok () c ∧
      definition .standard halving c = .ok d c' ∧ d.proto.name = "f" ∧
      d.Derived (ownSignatures halving d.proto) := by
  have hs : Resolved halving := by
    intro name sig hsig
    unfold halving at hsig
    split at hsig
    · cases hsig
      rfl
    · split at hsig
      · cases hsig
        rfl
      · cases hsig
  have hread : (match (do Parse.advance; definition .standard halving) (Cursor.ofText
        "def int f(int n, double x) if half(x) < 1.0 then n + 2 * n else f(n - 1, half(x))") with
      | .ok d _ => decide (d.proto.name = "f")
      | .error _ _ => false) = true := by decide +kernel
  split at hread
  · next d c' hr =>
    obtain ⟨_, c, hc, hd⟩ := run_bind_eq_ok_iff.1 hr
    exact ⟨hs, c, d, c', hc, hd, of_decide_eq_true hread, (read_derived .standard hs).1 c d c' hd⟩
  · cases hread

end ScalarLang
