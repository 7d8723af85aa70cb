import ScalarLang.Proofs.Concrete
import ScalarLang.Proofs.Typed

/-!
# Writing definitions down

To write an expression down is to choose its parentheses.  Here they are put where they are needed and
nowhere else: around every operand that is a conditional, around a left operand that binds less tightly
than its operator, and around a right operand that does not bind more tightly.

* `Expr.bare`, `Definition.bare` — without the places of the source text.
* `Expr.toConcrete` — with the parentheses that are needed.
* `Definition.tokens` — the tokens of a definition.
* `Expr.erase_toConcrete`, `Expr.grouped_toConcrete` — what is written means the expression, and is
  grouped by the table.
-/

namespace ScalarLang

open Token (Kind)

/-! ### Places -/

/-- The type alone. -/
def Expr.Tag.bare (tag : Expr.Tag) : Expr.Tag := ⟨tag.ty, .nowhere⟩

mutual

/-- The expression without the places of its nodes. -/
def Expr.bare : Expr → Expr
  | .literal value tag => .literal value tag.bare
  | .var name tag => .var name tag.bare
  | .binary op lhs rhs tag => .binary op lhs.bare rhs.bare tag.bare
  | .call callee args tag => .call callee (Expr.bareAll args) tag.bare
  | .conditional condition onTrue onFalse tag =>
    .conditional condition.bare onTrue.bare onFalse.bare tag.bare

/-- The expressions of a list without the places of their nodes. -/
def Expr.bareAll : List Expr → List Expr
  | [] => []
  | e :: es => e.bare :: Expr.bareAll es

end

def Param.bare (p : Param) : Param := ⟨p.name, p.ty, .nowhere⟩

def Prototype.bare (p : Prototype) : Prototype :=
  ⟨p.name, p.params.map Param.bare, p.ret, .nowhere⟩

/-- The definition without the places of its parts. -/
def Definition.bare (d : Definition) : Definition := ⟨d.proto.bare, d.body.bare⟩

theorem Expr.bareAll_eq_map (es : List Expr) : bareAll es = es.map bare := by
  induction es with
  | nil => rfl
  | cons e es ih => rw [bareAll, ih, List.map_cons]

/-- Places do not matter to types. -/
theorem Expr.ty_bare (e : Expr) : e.bare.ty = e.ty := by
  cases e <;> rw [bare] <;> rfl

theorem Expr.ty_eq_of_bare {e e' : Expr} (h : e.bare = e'.bare) : e.ty = e'.ty := by
  rw [← e.ty_bare, h, e'.ty_bare]

/-- Whatever does not look at the places of parameters is the same for parameters that differ in nothing
else. -/
theorem Prototype.map_params_of_bare {α : Type} {p p' : Prototype} (h : p'.bare = p.bare)
    (f : Param → α) (hf : ∀ q : Param, f q.bare = f q) : p'.params.map f = p.params.map f := by
  have hparams : p'.params.map Param.bare = p.params.map Param.bare := congrArg Prototype.params h
  have := congrArg (List.map f) hparams
  simpa [List.map_map, Function.comp_def, hf] using this

/-! ### Parentheses -/

/-- Puts parentheses around a tree if asked to. -/
def Concrete.enclosedIf (b : Bool) (t : Concrete) : Concrete := if b then .paren t else t

theorem Concrete.erase_enclosedIf (b : Bool) (t : Concrete) : (t.enclosedIf b).erase = t.erase := by
  cases b <;> rfl

theorem Concrete.Grouped.enclosedIf {table : PrecedenceTable} {t : Concrete} (h : t.Grouped table)
    (b : Bool) : (t.enclosedIf b).Grouped table := by
  cases b with
  | false => exact h
  | true => exact .paren h

namespace Expr

/-- Does an operand need parentheses where whatever binds less tightly than `least` is taken apart? -/
def needsParens (table : PrecedenceTable) (least : Int) : Expr → Bool
  | conditional _ _ _ _ => true
  | binary op _ _ _ => table.strength op < least
  | _ => false

mutual

/-- The expression with the parentheses that it needs. -/
def toConcrete (table : PrecedenceTable) : Expr → Concrete
  | literal value tag => .literal value tag
  | var name tag => .var name tag
  | binary op lhs rhs tag =>
    .binary op
      (.enclosedIf (lhs.needsParens table (table.strength op)) (lhs.toConcrete table))
      (.enclosedIf (rhs.needsParens table (table.strength op + 1)) (rhs.toConcrete table)) tag
  | call callee args tag => .call callee (toConcreteAll table args) tag
  | conditional condition onTrue onFalse tag =>
    .conditional (condition.toConcrete table) (onTrue.toConcrete table) (onFalse.toConcrete table) tag

/-- The expressions of a list, each with the parentheses that it needs. -/
def toConcreteAll (table : PrecedenceTable) : List Expr → List Concrete
  | [] => []
  | e :: es => e.toConcrete table :: toConcreteAll table es

end

variable {table : PrecedenceTable} {e : Expr}

theorem toConcreteAll_eq_map (es : List Expr) :
    toConcreteAll table es = es.map (toConcrete table) := by
  induction es with
  | nil => rfl
  | cons e es ih => rw [toConcreteAll, ih, List.map_cons]

/-- Parentheses do not change what is meant. -/
theorem erase_toConcrete (table : PrecedenceTable) (e : Expr) : (e.toConcrete table).erase = e := by
  induction e using Expr.induct with
  | literal value tag => rfl
  | var name tag => rfl
  | binary op lhs rhs tag ihl ihr =>
    rw [toConcrete, Concrete.erase, Concrete.erase_enclosedIf, Concrete.erase_enclosedIf, ihl, ihr]
  | call callee args tag ih =>
    rw [toConcrete, Concrete.erase, Concrete.eraseAll_eq_map, toConcreteAll_eq_map, List.map_map]
    congr 1
    conv_rhs => rw [← List.map_id args]
    exact List.map_congr_left ih
  | conditional condition onTrue onFalse tag ihc iht ihf =>
    rw [toConcrete, Concrete.erase, ihc, iht, ihf]

/-- An operand that stands without parentheses binds tightly enough. -/
theorem le_of_root?_operand {least : Int} {o : Operator}
    (h : ((e.toConcrete table).enclosedIf (e.needsParens table least)).root? = some o) :
    least ≤ table.strength o := by
  cases e with
  | binary op lhs rhs tag =>
    rw [needsParens] at h
    by_cases hlt : table.strength op < least
    · rw [decide_eq_true hlt] at h
      cases h
    · rw [decide_eq_false hlt, toConcrete] at h
      cases h
      exact not_lt.1 hlt
  | _ => cases h

/-- No conditional stands at the end of an operand without parentheses. -/
theorem endsInConditional_operand (e : Expr) (least : Int) :
    ((e.toConcrete table).enclosedIf (e.needsParens table least)).endsInConditional = false := by
  induction e using Expr.induct generalizing least with
  | literal value tag => rfl
  | var name tag => rfl
  | binary op lhs rhs tag _ ihr =>
    rw [needsParens]
    by_cases hlt : table.strength op < least
    · rw [decide_eq_true hlt]
      rfl
    · rw [decide_eq_false hlt, toConcrete]
      exact ihr (table.strength op + 1)
  | call callee args tag _ => rfl
  | conditional condition onTrue onFalse tag _ _ _ => rfl

/-- **The parentheses are enough.** -/
theorem grouped_toConcrete (h : ∀ op, 0 < table.strength op) (e : Expr) :
    (e.toConcrete table).Grouped table := by
  induction e using Expr.induct with
  | literal value tag => exact .literal
  | var name tag => exact .var
  | binary op lhs rhs tag ihl ihr =>
    rw [toConcrete]
    refine .binary (h op) (ihl.enclosedIf _) (ihr.enclosedIf _) ?_ ?_ ?_
    · exact fun o ho => le_of_root?_operand ho
    · exact fun o ho => Int.lt_of_add_one_le (le_of_root?_operand ho)
    · exact endsInConditional_operand lhs _
  | call callee args tag ih =>
    rw [toConcrete, toConcreteAll_eq_map]
    exact .call (List.forall_mem_map.2 ih)
  | conditional condition onTrue onFalse tag ihc iht ihf => exact .conditional ihc iht ihf

end Expr

/-! ### Tokens -/

/-- The token that names a type.  A type that is not resolved has no name. -/
def NumType.tokens : NumType → List Kind
  | int => [.kwInt]
  | double => [.kwDouble]
  | unresolved => []

/-- A type and a name. -/
def Param.tokens (p : Param) : List Kind := p.ty.tokens ++ [.identifier p.name]

/-- A result type, a name, and the parameters in parentheses with commas between them. -/
def Prototype.tokens (p : Prototype) : List Kind :=
  p.ret.tokens ++ .identifier p.name ::
    .char '(' :: ([.char ','].intercalate (p.params.map Param.tokens) ++ [.char ')'])

/-- The tokens of a definition, with the parentheses that its body needs. -/
def Definition.tokens (table : PrecedenceTable) (d : Definition) : List Kind :=
  .kwDef :: (d.proto.tokens ++ (d.body.toConcrete table).yield)

end ScalarLang
