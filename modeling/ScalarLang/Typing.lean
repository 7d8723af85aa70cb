import ScalarLang.Expr

/-!
# Typing rules

A node's type follows from the types of its children, the parameters in scope and the signatures of
the functions it calls.  No rule converts an `int` to a `double`.

* `Signature` — the types of a function's parameters and of its result.
* `Scope` — the parameters that a body can name.
* `TypeError` — what can be wrong, with the place it is reported at.
* `Typing.literal`, `Typing.var`, `Typing.binary`, `Typing.call`, `Typing.conditional`,
  `Typing.definition` — one rule for each form.
-/

namespace ScalarLang

structure Signature where
  params : List NumType
  ret : NumType
deriving DecidableEq, Repr, Inhabited

def Prototype.signature (p : Prototype) : Signature := ⟨p.params.map Param.ty, p.ret⟩

/-- What the functions known so far look like to a caller. -/
abbrev Signatures := String → Option Signature

/-- What is wrong with the types of a program. -/
inductive TypeError where
  | unknownVariable (name : String) (span : Span)
  | unknownFunction (name : String) (span : Span)
  | arityMismatch (name : String) (expected found : Nat) (span : Span)
  | argumentType (name : String) (index : Nat) (expected found : NumType) (span : Span)
  | mixedOperands (op : Operator) (lhs rhs : NumType) (span : Span)
  | mixedBranches (onTrue onFalse : NumType) (span : Span)
  | returnType (name : String) (expected found : NumType) (span : Span)
  | duplicateParameter (function param : String) (span : Span)
  | redefinition (name : String) (span : Span)
deriving DecidableEq, Repr, Inhabited

namespace TypeError

def span : TypeError → Span
  | unknownVariable _ span => span
  | unknownFunction _ span => span
  | arityMismatch _ _ _ span => span
  | argumentType _ _ _ _ span => span
  | mixedOperands _ _ _ span => span
  | mixedBranches _ _ span => span
  | returnType _ _ _ span => span
  | duplicateParameter _ _ span => span
  | redefinition _ span => span

def message : TypeError → String
  | unknownVariable name _ => "unknown variable '" ++ name ++ "'"
  | unknownFunction name _ => "unknown function '" ++ name ++ "'"
  | arityMismatch name expected found _ =>
    "function '" ++ name ++ "' expects " ++ expected.repr ++ " argument(s), found " ++ found.repr
  | argumentType name index expected found _ =>
    "argument " ++ (index + 1).repr ++ " of '" ++ name ++ "' must be " ++ expected.describe
      ++ ", found " ++ found.describe
  | mixedOperands op lhs rhs _ =>
    "operands of '" ++ op.symbol ++ "' must have the same type, found " ++ lhs.describe ++ " and "
      ++ rhs.describe ++ " (int is never converted to double implicitly)"
  | mixedBranches onTrue onFalse _ =>
    "branches of a conditional must have the same type, found " ++ onTrue.describe ++ " and "
      ++ onFalse.describe
  | returnType name expected found _ =>
    "function '" ++ name ++ "' is declared to return " ++ expected.describe ++ " but its body is "
      ++ found.describe
  | duplicateParameter function param _ =>
    "parameter '" ++ param ++ "' appears more than once in '" ++ function ++ "'"
  | redefinition name _ => "function '" ++ name ++ "' is already defined"

end TypeError

/-! ### Scopes -/

/-- The parameters of the function being read, in order and with distinct names. -/
structure Scope where
  params : List (String × NumType) := []
deriving DecidableEq, Repr, Inhabited

namespace Scope

def lookup? (s : Scope) (name : String) : Option NumType := s.params.lookup name

def size (s : Scope) : Nat := s.params.length

def isEmpty (s : Scope) : Bool := s.params.isEmpty

/-- The scope with one more parameter of the function `function`. -/
def bind (function : String) (s : Scope) (p : Param) : Except TypeError Scope :=
  if (s.lookup? p.name).isSome then .error (.duplicateParameter function p.name p.span)
  else .ok ⟨s.params ++ [(p.name, p.ty)]⟩

/-- The scope of a function's body; no two parameters may share a name. -/
def ofPrototype (p : Prototype) : Except TypeError Scope :=
  p.params.foldlM (bind p.name) {}

end Scope

/-- What an expression can refer to: the parameters in scope, the function it is part of, and the
functions known before it. -/
structure Context where
  signatures : Signatures
  scope : Scope := {}
  self? : Option Prototype := none

/-- The signature of a callee; a function that calls itself is meant before any other of its name. -/
def Context.signature? (ctx : Context) (name : String) : Option Signature :=
  match ctx.self? with
  | some proto => if proto.name = name then some proto.signature else ctx.signatures name
  | none => ctx.signatures name

/-! ### The rules -/

namespace Typing

def literal : Literal.Value → NumType
  | .int _ => .int
  | .double _ => .double

def var (ctx : Context) (name : String) (span : Span) : Except TypeError NumType :=
  match ctx.scope.lookup? name with
  | some ty => .ok ty
  | none => .error (.unknownVariable name span)

def binary (op : Operator) (lhs rhs : Expr) : Except TypeError NumType :=
  if lhs.ty = rhs.ty then .ok (lhs.ty.combine rhs.ty)
  else .error (.mixedOperands op lhs.ty rhs.ty (lhs.span.through rhs.span))

/-- Arguments have the types of the parameters; `index` counts the arguments before these. -/
def arguments (callee : String) : Nat → List NumType → List Expr → Except TypeError Unit
  | index, expected :: params, arg :: args =>
    if arg.ty = expected then arguments callee (index + 1) params args
    else .error (.argumentType callee index expected arg.ty arg.span)
  | _, _, _ => .ok ()

def call (ctx : Context) (callee : String) (args : List Expr) (span : Span) :
    Except TypeError NumType :=
  match ctx.signature? callee with
  | none => .error (.unknownFunction callee span)
  | some sig =>
    if sig.params.length = args.length then
      match arguments callee 0 sig.params args with
      | .ok () => .ok sig.ret
      | .error e => .error e
    else .error (.arityMismatch callee sig.params.length args.length span)

def conditional (onTrue onFalse : Expr) : Except TypeError NumType :=
  if onTrue.ty = onFalse.ty then .ok (onTrue.ty.combine onFalse.ty)
  else .error (.mixedBranches onTrue.ty onFalse.ty (onTrue.span.through onFalse.span))

def definition (proto : Prototype) (body : Expr) : Except TypeError Unit :=
  if body.ty = proto.ret then .ok ()
  else .error (.returnType proto.name proto.ret body.ty body.span)

end Typing

end ScalarLang
