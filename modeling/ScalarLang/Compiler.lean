import ScalarLang.Config
import ScalarLang.Diagnostic
import ScalarLang.Ir.Lowering
import ScalarLang.Machine
import ScalarLang.Program

/-!
# Compiling source texts

A compiler owns what outlives a source text: its configuration, the module, and a machine if
expressions are to be evaluated.  A session compiles one text, unit by unit.  A unit that cannot be
read is reported, and reading goes on behind the token it stopped at.  A definition stays in the
module; the function of an expression is taken out again once it has been evaluated.

* `CompileError` — what is wrong with a unit, and its diagnostic.
* `Outcome` — what became of a unit.
* `Event` — what a unit tells those who watch, in order.
* `Session.next` — the next unit of a text.
* `Compiler.compile` — all units of a text.
* `Compiler.moduleOf`, `Compiler.valuesOf` — a text as a whole, which fails if a unit does.
-/

namespace ScalarLang

/-- What is wrong with a unit. -/
inductive CompileError where
  | input (error : InputError)
  | lowering (error : Ir.LoweringError)
deriving DecidableEq, Repr, Inhabited

namespace CompileError

def category : CompileError → Category
  | input (.lexical _) => .lexical
  | input (.grammar _) => .grammar
  | input (.typing _) => .type
  | lowering (.typing _) => .type
  | lowering _ => .codegen

def span? : CompileError → Option Span
  | input e => some e.span
  | lowering e => e.span?

def message : CompileError → String
  | input e => e.message
  | lowering e => e.message

/-- Is it the source text that could not be read? -/
def isInput : CompileError → Bool
  | input _ => true
  | lowering _ => false

def toDiagnostic (e : CompileError) : Diagnostic :=
  { category := e.category, message := e.message, span? := e.span? }

end CompileError

/-- What became of a unit. -/
inductive Outcome where
  | definition (name listing : String)
  | expression (listing : String) (value? : Option Machine.Value)
  | failure (diagnostic : Diagnostic)
deriving DecidableEq, Repr, Inhabited

namespace Outcome

def isSuccess : Outcome → Bool
  | failure _ => false
  | _ => true

def diagnostic? : Outcome → Option Diagnostic
  | failure d => some d
  | _ => none

/-- The value of an expression that was evaluated. -/
def value? : Outcome → Option Machine.Value
  | expression _ value? => value?
  | _ => none

end Outcome

/-- What a unit tells those who watch. -/
inductive Event where
  | warn (text : String)
  | debug (text : String)
  | listing (text : String)
  | diagnostic (diagnostic : Diagnostic)
deriving DecidableEq, Repr, Inhabited

/-- The outcome of a unit and what it told on the way. -/
structure Report where
  outcome : Outcome
  events : List Event
deriving DecidableEq, Repr, Inhabited

structure Compiler where
  config : Config
  module : Ir.Module
  machine? : Option Machine := none
deriving Inhabited

namespace Compiler

/-- A compiler with an empty module that does not evaluate. -/
def ofConfig (config : Config) : Compiler :=
  { config, module := Ir.Module.empty config.moduleName }

/-- Lets expressions be evaluated. -/
def withMachine (c : Compiler) : Compiler :=
  { c with machine? := some { maxDepth := c.config.maxCallDepth } }

end Compiler

/-! ### Sessions -/

/-- A source text being compiled.  `needsAdvance` says that the token being looked at is done with. -/
structure Session where
  compiler : Compiler
  cursor : Cursor
  needsAdvance : Bool := true
deriving Inhabited

/-- Where the next unit is. -/
inductive Sought where
  | finished
  | malformed (error : LexError)
  | unit
deriving DecidableEq, Repr, Inhabited

/-- Looks for the next unit at `current` and behind it, past semicolons. -/
def Cursor.seekFrom (final : Token) : Token → List Item → Sought × Cursor
  | current, [] =>
    match current.kind with
    | .eof => (.finished, ⟨current, [], final⟩)
    | .char ';' => (.finished, ⟨final, [], final⟩)
    | _ => (.unit, ⟨current, [], final⟩)
  | current, item :: ahead =>
    match current.kind with
    | .eof => (.finished, ⟨current, item :: ahead, final⟩)
    | .char ';' =>
      match item with
      | .ok token => seekFrom final token ahead
      | .error e => (.malformed e, ⟨current, ahead, final⟩)
    | _ => (.unit, ⟨current, item :: ahead, final⟩)

/-- Looks for the next unit, behind the token being looked at if that is done with. -/
def Cursor.seek (c : Cursor) (needsAdvance : Bool) : Sought × Cursor :=
  if needsAdvance then
    match c.ahead with
    | [] => (.finished, { c with current := c.final })
    | .ok token :: ahead => seekFrom c.final token ahead
    | .error e :: ahead => (.malformed e, { c with ahead })
  else seekFrom c.final c.current c.ahead

/-- What adding the function of a prototype to a module tells. -/
def generationEvents (m : Ir.Module) (proto : Prototype)
    (result : Except Ir.LoweringError Ir.Function) : List Event :=
  if m.contains proto.name then []
  else
    match Ir.declare proto with
    | .error _ => []
    | .ok _ =>
      [.debug ("declared @" ++ proto.name),
        match result with
        | .ok f =>
          .debug ("generated @" ++ proto.name ++ " (" ++ f.layout.length.repr ++ " blocks)")
        | .error e => .debug ("erased @" ++ proto.name ++ ": " ++ e.message)]

namespace Session

/-- The session of a source text before its first unit. -/
def start (c : Compiler) (text : String) : Session :=
  { compiler := c, cursor := Cursor.ofText text }

/-- Reports a failure, behind the events that came before it.  If the text could not be read, the
token being looked at is done with. -/
def fail (s : Session) (events : List Event) (e : CompileError) : Report × Session :=
  let d := e.toDiagnostic
  let skipping :=
    if e.isInput then
      [Event.warn ("recovering: skipping " ++ s.cursor.current.kind.describe)]
    else []
  (⟨.failure d, events ++ skipping ++ [.diagnostic d]⟩,
    { s with needsAdvance := s.needsAdvance || e.isInput })

/-- The session with the module that adding a function has left. -/
def withModule (s : Session) (m : Ir.Module) : Session :=
  { s with compiler := { s.compiler with module := m } }

/-- Compiles the definition that the cursor stands at. -/
def definition (s : Session) : Report × Session :=
  let m := s.compiler.module
  let events := [Event.debug ("unit: definition at " ++ s.cursor.current.span.start.describe)]
  match Program.definition s.compiler.config.precedence m.signature? s.cursor with
  | .error e cursor => fail { s with cursor } events (.input e)
  | .ok d cursor =>
    let s := { s with cursor }
    let (result, m') := m.generate d
    let s := s.withModule m'
    let events := events ++ generationEvents m d.proto result
    match result with
    | .error e => s.fail events (.lowering e)
    | .ok f =>
      (⟨.definition d.proto.name f.text,
        events ++ [.listing f.text, .debug ("unit: defined @" ++ d.proto.name)]⟩, s)

/-- Evaluates the function of an expression, if there is a machine. -/
def evaluate (s : Session) : Except Machine.Fault (Option Machine.Value) × Session :=
  match s.compiler.machine? with
  | none => (.ok none, s)
  | some machine =>
    let (result, machine) := machine.execute s.compiler.module Prototype.anonymousName []
    (result.map some, { s with compiler := { s.compiler with machine? := some machine } })

/-- Compiles the expression that the cursor stands at, and evaluates it. -/
def expression (s : Session) : Report × Session :=
  let m := s.compiler.module
  let events := [Event.debug ("unit: expression at " ++ s.cursor.current.span.start.describe)]
  match Program.topLevel s.compiler.config.precedence m.signature? s.cursor with
  | .error e cursor => fail { s with cursor } events (.input e)
  | .ok d cursor =>
    let s := { s with cursor }
    let (result, m') := m.generate d
    let s := s.withModule m'
    let events := events ++ generationEvents m d.proto result
    match result with
    | .error e => s.fail events (.lowering e)
    | .ok f =>
      let (value, s) := s.evaluate
      let s := s.withModule (s.compiler.module.erase Prototype.anonymousName)
      let events := events ++ [.listing f.text, .debug "unit: expression done"]
      match value with
      | .ok value? => (⟨.expression f.text value?, events⟩, s)
      | .error fault =>
        let d : Diagnostic :=
          { category := .runtime, message := fault.message, span? := some d.proto.span }
        (⟨.failure d, events ++ [.diagnostic d]⟩, s)

/-- Compiles the next unit; `none` at the end of the text. -/
def next (s : Session) : Option (Report × Session) :=
  match s.cursor.seek s.needsAdvance with
  | (.finished, _) => none
  | (.malformed e, cursor) =>
    let events := [Event.warn ("skipping malformed input at " ++ e.span.start.describe)]
    some (fail { s with cursor, needsAdvance := true } events (.input (.lexical e)))
  | (.unit, cursor) =>
    let s := { s with cursor, needsAdvance := false }
    some (if cursor.current.kind = .kwDef then s.definition else s.expression)

/-- Compiles at most `n` units, and gives the compiler as they leave it. -/
def unitsFor : Nat → Session → List Report × Compiler
  | 0, s => ([], s.compiler)
  | n + 1, s =>
    match s.next with
    | none => ([], s.compiler)
    | some (report, s) =>
      let (reports, c) := unitsFor n s
      (report :: reports, c)

end Session

namespace Compiler

/-- Compiles a source text.  Every unit takes at least one item of it. -/
def compile (c : Compiler) (text : String) : List Report × Compiler :=
  let s := Session.start c text
  s.unitsFor (s.cursor.ahead.length + 1)

/-- The outcomes of a source text. -/
def outcomes (c : Compiler) (text : String) : List Outcome := (c.compile text).1.map Report.outcome

end Compiler

/-! ### Whole texts -/

/-- A source text of which a unit failed: its name and the diagnostics. -/
structure Failed where
  name : String
  diagnostics : List Diagnostic
deriving DecidableEq, Repr, Inhabited

def Failed.message (f : Failed) : String :=
  f.diagnostics.length.repr ++ " error(s) in " ++ f.name

namespace Compiler

/-- The outcomes and the module of a source text, if no unit fails. -/
def whole (c : Compiler) (name text : String) : Except Failed (List Outcome × Ir.Module) :=
  let (reports, c) := c.compile text
  let outcomes := reports.map Report.outcome
  let diagnostics := outcomes.filterMap Outcome.diagnostic?
  if diagnostics.isEmpty then .ok (outcomes, c.module) else .error ⟨name, diagnostics⟩

/-- The module of a source text. -/
def moduleOf (config : Config) (name text : String) : Except Failed Ir.Module :=
  ((ofConfig config).whole name text).map Prod.snd

/-- The values of the expressions of a source text. -/
def valuesOf (config : Config) (name text : String) : Except Failed (List Machine.Value) :=
  ((ofConfig config).withMachine.whole name text).map fun r => r.1.filterMap Outcome.value?

end Compiler

end ScalarLang
