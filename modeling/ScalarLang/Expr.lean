import ScalarLang.Literal
import ScalarLang.NumType
import ScalarLang.Operator
import ScalarLang.Source

/-!
# Expressions and definitions

Every node of an expression carries a tag: the type it was given and its place in the source.

* `Expr` — literals, variables, binary operations, calls and conditionals.
* `Prototype` — a function's name, parameters and result type.
* `Definition` — a prototype and a body; an expression on its own is the body of the anonymous
  prototype.
-/

namespace ScalarLang

/-- The type a node was given, and its place. -/
structure Expr.Tag where
  ty : NumType
  span : Span
deriving DecidableEq, Repr, Inhabited

inductive Expr where
  | literal (value : Literal.Value) (tag : Expr.Tag)
  | var (name : String) (tag : Expr.Tag)
  | binary (op : Operator) (lhs rhs : Expr) (tag : Expr.Tag)
  | call (callee : String) (args : List Expr) (tag : Expr.Tag)
  | conditional (condition onTrue onFalse : Expr) (tag : Expr.Tag)
deriving Repr, Inhabited

namespace Expr

def tag : Expr → Tag
  | literal _ t => t
  | var _ t => t
  | binary _ _ _ t => t
  | call _ _ t => t
  | conditional _ _ _ t => t

def ty (e : Expr) : NumType := e.tag.ty

def span (e : Expr) : Span := e.tag.span

end Expr

/-- A parameter: its name, its type, and the place of both. -/
structure Param where
  name : String
  ty : NumType
  span : Span
deriving DecidableEq, Repr, Inhabited

structure Prototype where
  name : String
  params : List Param
  ret : NumType
  span : Span
deriving DecidableEq, Repr, Inhabited

namespace Prototype

/-- The name under which a top-level expression is compiled.  No source text can spell it, because
names start with a letter. -/
def anonymousName : String := "__anon_expr"

/-- The prototype of a top-level expression: no parameters, and an `int` as its result. -/
def anonymous (span : Span) : Prototype := ⟨anonymousName, [], .int, span⟩

def isAnonymous (p : Prototype) : Bool := p.name == anonymousName

end Prototype

/-- A function: a prototype and the expression that computes its result. -/
structure Definition where
  proto : Prototype
  body : Expr
deriving Repr, Inhabited

end ScalarLang
