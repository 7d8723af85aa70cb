import ScalarLang.Expr.Parser

/-!
# Reading definitions and programs

A program is a sequence of definitions and expressions; semicolons between them are optional.

* `Program.prototype` — `int name(int a, double b)`.
* `Program.definition` — `def`, a prototype and a body that has the declared type.
* `Program.topLevel` — an expression on its own, which has to be an `int`.
* `Program.parse` — all units of a text, or its first error.  A unit can call the functions defined
  before it.
-/

namespace ScalarLang

namespace Program

/-- The name of a type. -/
def type (what : String) : Parse NumType := do
  let c ← get
  match c.current.kind with
  | .kwInt => do
    Parse.advance
    return .int
  | .kwDouble => do
    Parse.advance
    return .double
  | _ => Parse.expected what

/-- A name, which is given together with its place. -/
def name (what : String) : Parse (String × Span) := do
  let c ← get
  match c.current.kind with
  | .identifier name => do
    Parse.advance
    return (name, c.current.span)
  | _ => Parse.expected what

/-- A type and a name. -/
def parameter : Parse Param := do
  let start := (← get).current.span
  let ty ← type "parameter type ('int' or 'double')"
  let (name, span) ← name "parameter name"
  return ⟨name, ty, start.through span⟩

/-- One or more parameters between commas, at most `n`. -/
def parametersFor : Nat → Parse (List Param)
  | 0 => pure []
  | n + 1 => do
    let param ← parameter
    if (← get).atChar? ',' then do
      Parse.advance
      let params ← parametersFor n
      return param :: params
    else return [param]

/-- One or more parameters between commas.  Each takes at least one item from what is ahead. -/
def parameters : Parse (List Param) := fun c => parametersFor (c.ahead.length + 1) c

/-- A result type, a name and the parameters in parentheses. -/
def prototype : Parse Prototype := do
  let start := (← get).current.span
  let ret ← type "return type ('int' or 'double')"
  let (name, _) ← name "function name in prototype"
  let _ ← Parse.expectChar '('
  let params ← if (← get).atChar? ')' then pure [] else parameters
  let close ← Parse.expectChar ')'
  return ⟨name, params, ret, start.through close⟩

/-- A function definition.  Its body can name the parameters and call the function itself. -/
def definition (table : PrecedenceTable) (signatures : Signatures) : Parse Definition := do
  let _ ← Parse.expect .kwDef "'def'"
  let proto ← prototype
  let scope ← Parse.check (Scope.ofPrototype proto)
  let body ← Expr.Reader.expression table ⟨signatures, scope, some proto⟩
  Parse.check (Typing.definition proto body)
  return ⟨proto, body⟩

/-- An expression outside of all functions. -/
def topLevel (table : PrecedenceTable) (signatures : Signatures) : Parse Definition := do
  let body ← Expr.Reader.expression table ⟨signatures, {}, none⟩
  let proto := Prototype.anonymous body.span
  Parse.check (Typing.definition proto body)
  return ⟨proto, body⟩

/-- The signatures of the functions among `units`; of two with one name the later one counts. -/
def signatures (units : List Definition) : Signatures := fun name =>
  (units.reverse.find? fun d => !d.proto.isAnonymous && d.proto.name == name).map
    fun d => d.proto.signature

/-- The units from the cursor on, at most `n` steps of them, behind those in `done`. -/
def unitsFor (table : PrecedenceTable) : Nat → List Definition → Parse (List Definition)
  | 0, done => pure done
  | n + 1, done => do
    match (← get).current.kind with
    | .eof => return done
    | .char ';' => do
      Parse.advance
      unitsFor table n done
    | .kwDef => do
      let d ← definition table (signatures done)
      unitsFor table n (done ++ [d])
    | _ => do
      let d ← topLevel table (signatures done)
      unitsFor table n (done ++ [d])

/-- The units of a text, or its first error.  Each step takes at least one item. -/
def parse (table : PrecedenceTable) (text : String) : Except InputError (List Definition) :=
  let c := Cursor.ofText text
  match (do Parse.advance; unitsFor table (c.ahead.length + 1) []) c with
  | .ok units _ => .ok units
  | .error e _ => .error e

end Program

end ScalarLang
