import ScalarLang.Proofs.Moves

/-!
# How expressions are grouped

Whatever the table of precedences says, an expression that is read is the meaning of a concrete tree that
is grouped by the table, and exactly the tokens of the tree are read.  While operators are folded, the
tree of the left operand grows; it stays grouped because the operator behind it never binds more tightly
than the one at its root.

* `Expr.Reader.Shapes` — a grouped tree has been written between two cursors.
* `Expr.Reader.Shapes.binary` — folding one operator.
* `Expr.Reader.readers_shape` — all readers read grouped trees.
-/

namespace ScalarLang

open Token (Kind)

namespace Expr.Reader

variable {table : PrecedenceTable} {ctx : Context} {c₀ c c' : Cursor} {t : Concrete} {e : Expr}

/-- Between the cursors stands a grouped tree that means `e`.  If a conditional ends it, then the
conditional does not go on. -/
structure Shapes (table : PrecedenceTable) (c c' : Cursor) (t : Concrete) (e : Expr) : Prop where
  erase : t.erase = e
  consumes : c.Consumes t.yield c'
  grouped : t.Grouped table
  ends : t.endsInConditional = true → c'.precedence table < 0

/-- An operator and its right operand are folded onto what is in front of them. -/
theorem Shapes.binary {c₁ c₃ : Cursor} {op : Operator} {lhs rhs : Concrete} {l r : Expr}
    (tag : Expr.Tag) (hl : Shapes table c₀ c lhs l) (hop : c.Takes (.operator op.symbol) c₁)
    (hr : Shapes table c₁ c₃ rhs r) (hpos : 0 ≤ table.strength op)
    (hlop : ∀ o, lhs.root? = some o → table.strength op ≤ table.strength o)
    (hrop : ∀ o, rhs.root? = some o → table.strength op < table.strength o) :
    Shapes table c₀ c₃ (.binary op lhs rhs tag) (.binary op l r tag) := by
  have hprec : c.precedence table = table.strength op := Cursor.precedence_of_operator hop.kind
  refine ⟨?_, ?_, .binary ?_ hl.grouped hr.grouped hlop hrop ?_, fun h => hr.ends h⟩
  · rw [Concrete.erase, hl.erase, hr.erase]
  · rw [Concrete.yield]
    exact hl.consumes.append (.cons hop hr.consumes)
  · rw [← hprec]
    exact Cursor.precedence_pos (hprec ▸ hpos)
  · -- a conditional at the end of the left operand would have taken in the operator
    by_contra hend
    have := hl.ends (Bool.of_not_eq_false hend)
    omega

/-- A primary is read as a tree without an operator at its root. -/
theorem ReadsPrimary.shapes {whole : Parse Expr} {arguments : Parse (List Expr)}
    (h : ReadsPrimary ctx whole arguments c e c')
    (hwhole : ∀ c e c', whole c = .ok e c' →
      c'.precedence table < 0 ∧ ∃ t, Shapes table c c' t e)
    (harguments : ∀ c args c', arguments c = .ok args c' → ∃ ts : List Concrete,
      ts.map Concrete.erase = args ∧ c.Consumes ([.char ','].intercalate (ts.map Concrete.yield)) c' ∧
      ∀ t ∈ ts, t.Grouped table) :
    ∃ t, Shapes table c c' t e ∧ t.root? = none := by
  cases h with
  | @literal value _ h =>
    exact ⟨.literal value _, ⟨rfl, .cons h .nil, .literal, fun h => nomatch h⟩, rfl⟩
  | @var name ty _ h =>
    exact ⟨.var name _, ⟨rfl, .cons h .nil, .var, fun h => nomatch h⟩, rfl⟩
  | @call name args ty c₁ c₂ c₃ _ h hopen hargs hclose hty =>
    obtain ⟨ts, hts, hyield, hgrouped⟩ : ∃ ts : List Concrete, ts.map Concrete.erase = args ∧
        c₂.Consumes ([.char ','].intercalate (ts.map Concrete.yield)) c₃ ∧
        ∀ t ∈ ts, t.Grouped table := by
      split at hargs
      · obtain ⟨rfl, rfl⟩ := hargs
        exact ⟨[], rfl, .nil, fun t ht => absurd ht List.not_mem_nil⟩
      · exact harguments _ _ _ hargs
    refine ⟨.call name ts ⟨ty, c.current.span.through c₃.current.span⟩, ⟨?_, ?_, .call hgrouped, fun h => nomatch h⟩,
      rfl⟩
    · rw [Concrete.erase, Concrete.eraseAll_eq_map, hts]
    · rw [Concrete.yield, Concrete.yieldAll_eq_map]
      exact .cons h (.cons hopen (hyield.snoc hclose))
  | paren hopen he hclose =>
    obtain ⟨-, t, ht⟩ := hwhole _ _ _ he
    refine ⟨.paren t, ⟨?_, ?_, .paren ht.grouped, fun h => nomatch h⟩, rfl⟩
    · rw [Concrete.erase, ht.erase]
    · rw [Concrete.yield]
      exact .cons hopen (ht.consumes.snoc hclose)
  | @conditional _ _ onFalse ty _ _ _ _ _ _ hif hc hthen ht helse hf hty =>
    obtain ⟨-, tc, hc⟩ := hwhole _ _ _ hc
    obtain ⟨-, tt, ht⟩ := hwhole _ _ _ ht
    obtain ⟨hnone, tf, hf⟩ := hwhole _ _ _ hf
    refine ⟨.conditional tc tt tf ⟨ty, c.current.span.through onFalse.span⟩,
      ⟨?_, ?_, .conditional hc.grouped ht.grouped hf.grouped, fun _ => hnone⟩, rfl⟩
    · rw [Concrete.erase, hc.erase, ht.erase, hf.erase]
    · rw [Concrete.yield]
      exact .cons hif (hc.consumes.append (.cons hthen (ht.consumes.append
        (.cons helse hf.consumes))))

/-- Operators are folded onto a tree whose root, if it is an operator, binds at least as tightly as the
operator that comes next. -/
theorem operatorsBy_shapes {operand : Parse Expr} {fold : Int → Expr → Parse Expr} {least : Int}
    {lhs : Expr}
    (hoperand : ∀ c e c', operand c = .ok e c' →
      ∃ t, Shapes table c c' t e ∧ t.root? = none)
    (hfold : ∀ least lhs c₀ c t e c', 0 ≤ least → Shapes table c₀ c t lhs →
      (∀ o, t.root? = some o → least ≤ table.strength o ∧ c.precedence table ≤ table.strength o) →
      fold least lhs c = .ok e c' → c'.precedence table < least ∧
        ∃ t', Shapes table c₀ c' t' e ∧ ∀ o, t'.root? = some o → least ≤ table.strength o)
    (hleast : 0 ≤ least) (ht : Shapes table c₀ c t lhs)
    (hroot : ∀ o, t.root? = some o →
      least ≤ table.strength o ∧ c.precedence table ≤ table.strength o)
    (h : operatorsBy table (fun p => pure (p + 1)) operand fold least lhs c = .ok e c') :
    c'.precedence table < least ∧
      ∃ t', Shapes table c₀ c' t' e ∧ ∀ o, t'.root? = some o → least ≤ table.strength o := by
  rcases lt_or_ge (c.precedence table) least with hlt | hge
  · rw [operatorsBy_of_lt hlt] at h
    cases h
    exact ⟨hlt, t, ht, fun o ho => (hroot o ho).1⟩
  · obtain ⟨op, c₁, first, c₂, rhs, c₃, ty, hop, hfirst, hrhs, -, he⟩ :=
      (operatorsBy_eq_ok_iff hge).1 h
    have hprec : c.precedence table = table.strength op := Cursor.precedence_of_operator hop.kind
    rw [hprec] at hge hroot hrhs
    obtain ⟨t₁, ht₁, hroot₁⟩ := hoperand _ _ _ hfirst
    -- what stands behind the right operand binds no more tightly than the operator
    obtain ⟨hle, tr, htr, hrop⟩ : c₃.precedence table ≤ table.strength op ∧ ∃ tr,
        Shapes table c₁ c₃ tr rhs ∧
        ∀ o, tr.root? = some o → table.strength op < table.strength o := by
      split at hrhs
      · obtain ⟨hlt, tr, htr, hrop⟩ := hfold _ _ _ _ t₁ _ _ (by omega) ht₁ (by simp [hroot₁]) hrhs
        exact ⟨Int.lt_add_one_iff.1 hlt, tr, htr, fun o ho => Int.lt_of_add_one_le (hrop o ho)⟩
      · next hnlt =>
        obtain ⟨rfl, rfl⟩ := hrhs
        exact ⟨not_lt.1 hnlt, t₁, ht₁, by simp [hroot₁]⟩
    have hfolded := ht.binary ⟨ty, lhs.span.through rhs.span⟩ hop htr (by omega)
      (fun o ho => (hroot o ho).2) hrop
    refine hfold _ _ _ _ _ _ _ hleast hfolded ?_ he
    intro o ho
    cases ho
    exact ⟨hge, hle⟩

/-- **All readers read grouped trees.**  By induction on the depth of the recursion, for the four readers
at once. -/
theorem readers_shape (table : PrecedenceTable) (ctx : Context) (fuel : Nat) :
    (∀ c e c', expressionFor table ctx fuel c = .ok e c' →
      c'.precedence table < 0 ∧ ∃ t, Shapes table c c' t e) ∧
    (∀ c e c', primaryFor table ctx fuel c = .ok e c' →
      ∃ t, Shapes table c c' t e ∧ t.root? = none) ∧
    (∀ least lhs c₀ c t e c', 0 ≤ least → Shapes table c₀ c t lhs →
      (∀ o, t.root? = some o → least ≤ table.strength o ∧ c.precedence table ≤ table.strength o) →
      operatorsFor table ctx fuel least lhs c = .ok e c' → c'.precedence table < least ∧
        ∃ t', Shapes table c₀ c' t' e ∧ ∀ o, t'.root? = some o → least ≤ table.strength o) ∧
    (∀ c args c', argumentsFor table ctx fuel c = .ok args c' → ∃ ts : List Concrete,
      ts ≠ [] ∧ ts.map Concrete.erase = args ∧
      c.Consumes ([.char ','].intercalate (ts.map Concrete.yield)) c' ∧
      ∀ t ∈ ts, t.Grouped table) := by
  induction fuel with
  | zero =>
    refine ⟨?_, ?_, ?_, ?_⟩
    · intro c e c' h
      cases h
    · intro c e c' h
      cases h
    · intro least lhs c₀ c t e c' _ _ _ h
      cases h
    · intro c args c' h
      cases h
  | succ fuel ih =>
    obtain ⟨ihe, ihp, iho, iha⟩ := ih
    refine ⟨?_, ?_, ?_, ?_⟩
    · intro c e c' h
      rw [expressionFor] at h
      obtain ⟨lhs, c₁, hlhs, h⟩ := run_bind_eq_ok_iff.1 h
      obtain ⟨t, ht, hroot⟩ := ihp _ _ _ hlhs
      obtain ⟨hlt, t', ht', -⟩ := iho _ _ _ _ t _ _ le_rfl ht (by simp [hroot]) h
      exact ⟨hlt, t', ht'⟩
    · intro c e c' h
      rw [primaryFor_succ] at h
      refine (primaryOf_eq_ok_iff.1 h).shapes ihe fun c args c' hargs => ?_
      obtain ⟨ts, -, hts⟩ := iha c args c' hargs
      exact ⟨ts, hts⟩
    · intro least lhs c₀ c t e c' hleast ht hroot h
      rw [operatorsFor_succ] at h
      exact operatorsBy_shapes ihp iho hleast ht hroot h
    · intro c args c' h
      rw [argumentsFor_succ, argumentsOf_eq_ok_iff] at h
      obtain ⟨arg, c₁, harg, h⟩ := h
      obtain ⟨-, t, ht⟩ := ihe _ _ _ harg
      split at h
      · obtain ⟨rfl, rfl⟩ := h
        refine ⟨[t], by simp, by simp [ht.erase], ?_, by simpa using ht.grouped⟩
        rw [List.map_singleton, List.intercalate_singleton]
        exact ht.consumes
      · obtain ⟨c₂, rest, hcomma, hrest, rfl⟩ := h
        obtain ⟨ts, hne, hts, hyield, hgrouped⟩ := iha _ _ _ hrest
        refine ⟨t :: ts, by simp, by simp [ht.erase, hts], ?_,
          List.forall_mem_cons.2 ⟨ht.grouped, hgrouped⟩⟩
        obtain ⟨t', ts, rfl⟩ := List.exists_cons_of_ne_nil hne
        rw [List.map_cons, List.map_cons, List.intercalate_cons_cons, List.append_assoc]
        exact ht.consumes.append (.cons hcomma hyield)

end Expr.Reader

end ScalarLang
