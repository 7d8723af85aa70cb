import Mathlib
import ScalarLang.Expr
import ScalarLang.Token

/-!
# Expressions as they are written

An expression says which operands an operator has; a text says it with precedences and parentheses.
A concrete tree is an expression with the parentheses that were written around its parts.  It is grouped
by a table of precedences if every pair of parentheses that the table asks for is there.

* `Concrete` — expressions with parentheses.
* `Concrete.erase` — the expression that is meant.
* `Concrete.yield` — the tokens that are written.
* `Concrete.Grouped` — operators group by their precedences, and to the left where these are equal; a
  conditional extends as far to the right as it can.
-/

namespace ScalarLang

/-- How tightly an operator binds; minus one if the table has no positive number for it. -/
def PrecedenceTable.strength (table : PrecedenceTable) (op : Operator) : Int :=
  (table.precedence? op.symbol).getD (-1)

/-- The token of a literal. -/
def Literal.Value.kind : Literal.Value → Token.Kind
  | .int value => .intLiteral value
  | .double value => .floatLiteral value

/-- An expression with the parentheses that are written in it. -/
inductive Concrete where
  | literal (value : Literal.Value) (tag : Expr.Tag)
  | var (name : String) (tag : Expr.Tag)
  | binary (op : Operator) (lhs rhs : Concrete) (tag : Expr.Tag)
  | call (callee : String) (args : List Concrete) (tag : Expr.Tag)
  | conditional (condition onTrue onFalse : Concrete) (tag : Expr.Tag)
  | paren (inner : Concrete)

namespace Concrete

mutual

/-- The expression without its parentheses. -/
def erase : Concrete → Expr
  | literal value tag => .literal value tag
  | var name tag => .var name tag
  | binary op lhs rhs tag => .binary op lhs.erase rhs.erase tag
  | call callee args tag => .call callee (eraseAll args) tag
  | conditional condition onTrue onFalse tag =>
    .conditional condition.erase onTrue.erase onFalse.erase tag
  | paren inner => inner.erase

/-- The expressions of a list, without their parentheses. -/
def eraseAll : List Concrete → List Expr
  | [] => []
  | t :: ts => t.erase :: eraseAll ts

end

mutual

/-- The tokens of an expression, from left to right. -/
def yield : Concrete → List Token.Kind
  | literal value _ => [value.kind]
  | var name _ => [.identifier name]
  | binary op lhs rhs _ => lhs.yield ++ .operator op.symbol :: rhs.yield
  | call callee args _ =>
    .identifier callee :: .char '(' :: ([.char ','].intercalate (yieldAll args) ++ [.char ')'])
  | conditional condition onTrue onFalse _ =>
    .kwIf :: (condition.yield ++ .kwThen :: (onTrue.yield ++ .kwElse :: onFalse.yield))
  | paren inner => .char '(' :: (inner.yield ++ [.char ')'])

/-- The tokens of each expression of a list. -/
def yieldAll : List Concrete → List (List Token.Kind)
  | [] => []
  | t :: ts => t.yield :: yieldAll ts

end

/-- The operator of an operation that has no parentheses around it. -/
def root? : Concrete → Option Operator
  | binary op _ _ _ => some op
  | _ => none

/-- Does a conditional without parentheses around it stand at the right end?  Its last branch takes in
whatever operators follow. -/
def endsInConditional : Concrete → Bool
  | conditional _ _ _ _ => true
  | binary _ _ rhs _ => rhs.endsInConditional
  | _ => false

/-- The parentheses say together with the table which operands an operator has.  A left operand without
parentheses binds at least as tightly as the operator and a right one more tightly, and no conditional
at the end of a left operand could take in the operator. -/
inductive Grouped (table : PrecedenceTable) : Concrete → Prop
  | literal {value : Literal.Value} {tag : Expr.Tag} : Grouped table (.literal value tag)
  | var {name : String} {tag : Expr.Tag} : Grouped table (.var name tag)
  | binary {op : Operator} {lhs rhs : Concrete} {tag : Expr.Tag} (hop : 0 < table.strength op)
      (hl : Grouped table lhs) (hr : Grouped table rhs)
      (hlop : ∀ o, lhs.root? = some o → table.strength op ≤ table.strength o)
      (hrop : ∀ o, rhs.root? = some o → table.strength op < table.strength o)
      (hend : lhs.endsInConditional = false) : Grouped table (.binary op lhs rhs tag)
  | call {callee : String} {args : List Concrete} {tag : Expr.Tag}
      (hargs : ∀ t ∈ args, Grouped table t) : Grouped table (.call callee args tag)
  | conditional {condition onTrue onFalse : Concrete} {tag : Expr.Tag}
      (hc : Grouped table condition) (ht : Grouped table onTrue) (hf : Grouped table onFalse) :
      Grouped table (.conditional condition onTrue onFalse tag)
  | paren {inner : Concrete} (h : Grouped table inner) : Grouped table (.paren inner)

theorem eraseAll_eq_map (ts : List Concrete) : eraseAll ts = ts.map erase := by
  induction ts with
  | nil => rfl
  | cons t ts ih => rw [eraseAll, ih, List.map_cons]

theorem yieldAll_eq_map (ts : List Concrete) : yieldAll ts = ts.map yield := by
  induction ts with
  | nil => rfl
  | cons t ts ih => rw [yieldAll, ih, List.map_cons]

end Concrete

end ScalarLang
