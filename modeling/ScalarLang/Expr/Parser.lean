import ScalarLang.Token.Cursor

/-!
# Reading expressions

An expression is a primary followed by operators and further primaries, grouped by precedence: a
stronger operator groups first, and equal ones group to the left.  Every node is typed as it is built,
so an expression that is read is a typed one.

* `Expr.Reader.expression` — a whole expression.
* `Expr.Reader.primary` — a literal, a variable, a call, a parenthesised expression or a conditional.
* `Expr.Reader.operators` — the operators behind a left operand, as far as they bind tightly enough.

The readers call each other to a depth that `fuel` bounds.  Each level but a few moves the cursor, so
`Cursor.fuel` is enough for what is ahead of it.
-/

namespace ScalarLang

/-- A depth of recursion that reading an expression at this cursor does not exceed. -/
def Cursor.fuel (c : Cursor) : Nat := 4 * c.ahead.length + 8

/-- The value of a token that is a literal. -/
def Token.Kind.literal? : Token.Kind → Option Literal.Value
  | intLiteral value => some (.int value)
  | floatLiteral value => some (.double value)
  | _ => none

namespace Expr.Reader

/-- The operator being looked at. -/
def operator : Parse Operator := fun c =>
  match c.current.kind with
  | .operator symbol =>
    match Operator.ofSymbol? symbol with
    | some op => .ok op c
    | none => .error (.grammar (.unsupportedOperator symbol c.current.span)) c
  | _ => .error (c.expected "binary operator") c

/-- A literal whose value has been looked at. -/
def literal (value : Literal.Value) (span : Span) : Parse Expr := do
  Parse.advance
  return .literal value ⟨Typing.literal value, span⟩

/-- The call of a name whose opening parenthesis is being looked at. -/
def callOf (ctx : Context) (name : String) (start : Span) (arguments : Parse (List Expr)) :
    Parse Expr := do
  Parse.advance
  let args ← if (← get).atChar? ')' then pure [] else arguments
  let close ← Parse.expectChar ')'
  let span := start.through close
  let ty ← Parse.check (Typing.call ctx name args span)
  return .call name args ⟨ty, span⟩

/-- A name that is being looked at: a call if a parenthesis follows, and otherwise a variable. -/
def named (ctx : Context) (name : String) (start : Span) (arguments : Parse (List Expr)) :
    Parse Expr := do
  Parse.advance
  if (← get).atChar? '(' then callOf ctx name start arguments
  else do
    let ty ← Parse.check (Typing.var ctx name start)
    return .var name ⟨ty, start⟩

/-- An expression whose opening parenthesis is being looked at. -/
def parenthesised (inner : Parse Expr) : Parse Expr := do
  Parse.advance
  let e ← inner
  let _ ← Parse.expectChar ')'
  return e

/-- A conditional whose first word is being looked at. -/
def conditional (start : Span) (part : Parse Expr) : Parse Expr := do
  Parse.advance
  let condition ← part
  let _ ← Parse.expect .kwThen "'then'"
  let onTrue ← part
  let _ ← Parse.expect .kwElse "'else'"
  let onFalse ← part
  let ty ← Parse.check (Typing.conditional onTrue onFalse)
  return .conditional condition onTrue onFalse ⟨ty, start.through onFalse.span⟩

/-- Fails because no expression starts with a token. -/
def unexpected (found : Token) : Parse Expr :=
  throw (.grammar (.unexpectedToken found.kind found.span))

mutual

/-- A primary and the operators behind it. -/
def expressionFor (table : PrecedenceTable) (ctx : Context) : Nat → Parse Expr
  | 0 => fun c => .error (.grammar (.unexpectedToken c.current.kind c.current.span)) c
  | fuel + 1 => do
    let lhs ← primaryFor table ctx fuel
    operatorsFor table ctx fuel 0 lhs

/-- What an operator stands between. -/
def primaryFor (table : PrecedenceTable) (ctx : Context) : Nat → Parse Expr
  | 0 => fun c => .error (.grammar (.unexpectedToken c.current.kind c.current.span)) c
  | fuel + 1 => do
    let start := (← get).current
    match start.kind.literal? with
    | some value => literal value start.span
    | none =>
      match start.kind with
      | .identifier name => named ctx name start.span (argumentsFor table ctx fuel)
      | .kwIf => conditional start.span (expressionFor table ctx fuel)
      | .char c =>
        if c = '(' then parenthesised (expressionFor table ctx fuel) else unexpected start
      | _ => unexpected start

/-- The operators behind `lhs` that bind at least as tightly as `least`, folded onto it. -/
def operatorsFor (table : PrecedenceTable) (ctx : Context) : Nat → Int → Expr → Parse Expr
  | 0, _, _ => fun c => .error (.grammar (.unexpectedToken c.current.kind c.current.span)) c
  | fuel + 1, least, lhs => do
    let strength := (← get).precedence table
    if strength < least then return lhs
    else do
      let op ← operator
      Parse.advance
      let first ← primaryFor table ctx fuel
      let rhs ←
        if strength < (← get).precedence table then
          operatorsFor table ctx fuel (strength + 1) first
        else pure first
      let ty ← Parse.check (Typing.binary op lhs rhs)
      operatorsFor table ctx fuel least (.binary op lhs rhs ⟨ty, lhs.span.through rhs.span⟩)

/-- One or more arguments, up to the closing parenthesis. -/
def argumentsFor (table : PrecedenceTable) (ctx : Context) : Nat → Parse (List Expr)
  | 0 => fun c => .error (.grammar (.unexpectedToken c.current.kind c.current.span)) c
  | fuel + 1 => do
    let arg ← expressionFor table ctx fuel
    let c ← get
    if c.atChar? ')' then return [arg]
    else if c.atChar? ',' then do
      Parse.advance
      let args ← argumentsFor table ctx fuel
      return arg :: args
    else Parse.expected "')' or ',' in argument list"

end

/-- A whole expression. -/
def expression (table : PrecedenceTable) (ctx : Context) : Parse Expr := fun c =>
  expressionFor table ctx c.fuel c

/-- A literal, a variable, a call, a parenthesised expression or a conditional. -/
def primary (table : PrecedenceTable) (ctx : Context) : Parse Expr := fun c =>
  primaryFor table ctx c.fuel c

/-- The operators behind `lhs` that bind at least as tightly as `least`, folded onto it. -/
def operators (table : PrecedenceTable) (ctx : Context) (least : Int) (lhs : Expr) : Parse Expr :=
  fun c => operatorsFor table ctx c.fuel least lhs c

end Expr.Reader

end ScalarLang
