import ScalarLang.CommandLine.Arguments
import ScalarLang.Config.Document
import ScalarLang.Host
import ScalarLang.Repl

/-!
# The command line

* `CommandLine.eventText` — how what a unit tells is written.
* `CommandLine.Failure` — why a command fails, and how that is written.
* `CommandLine.perform` — carries out a command on a host.
* `CommandLine.run` — carries out a command line, and gives its exit status.
-/

namespace ScalarLang

namespace CommandLine

/-! ### What is told -/

/-- A character of a log line.  Control characters that a terminal would act on are written as their
codes. -/
def logChar (c : Char) : List Char :=
  let code := c.toNat
  if code = 0x1B ∨ code = 0x07 ∨ code = 0x08 ∨ code = 0x0C ∨ code = 0x7F then
    ['\\', 'x'] ++ (if code < 0x10 then ['0'] else []) ++ Nat.toDigits 16 code
  else if 0x80 ≤ code ∧ code ≤ 0x9F then ['\\', 'u', '\x7b'] ++ Nat.toDigits 16 code ++ ['\x7d']
  else [c]

def logText (text : String) : String := String.ofList (text.toList.flatMap logChar)

/-- How an event is written.  Debugging lines and listings are written if they are asked for. -/
def eventText (verbose : Bool) (config : Config) (source : Source) : Event → String
  | .warn text => " WARN " ++ logText text ++ "\n"
  | .debug text => if verbose then "DEBUG " ++ logText text ++ "\n" else ""
  | .listing text => if config.dumpIr then text else ""
  | .diagnostic d => d.render { colors := config.color } (some source)

/-! ### Failures -/

/-- Why a command fails: a message, what caused it, the nearest cause first, and the exit status. -/
structure Failure where
  message : String
  causes : List String := []
  status : UInt32 := 1
deriving DecidableEq, Repr, Inhabited

/-- A cause after its mark; its further lines start below its first. -/
def Failure.hang (mark cause : String) : String :=
  let margin := String.ofList (List.replicate mark.length ' ')
  mark ++ ("\n" ++ margin).intercalate (cause.splitOn "\n") ++ "\n"

/-- Causes on lines of their own; if there are several, they are numbered. -/
def Failure.causeLines : List String → String
  | [] => ""
  | [cause] => "\nCaused by:\n" ++ hang "    " cause
  | causes =>
    "\nCaused by:\n" ++ String.join (causes.zipIdx.map fun (cause, n) =>
      hang ("    " ++ n.repr ++ ": ") cause)

def Failure.text (f : Failure) : String := "Error: " ++ f.message ++ "\n" ++ causeLines f.causes

/-- A source file that cannot be read. -/
def Failure.unreadable (path : String) (fault : FileFault) : Failure :=
  { message := "failed to read file: " ++ path, causes := [fault.message] }

/-- A typed line in which a backspace cuts a character apart. -/
def Failure.uneditable : Failure :=
  { message := "a backspace cuts a character apart", status := 101 }

/-- Why a configuration cannot be loaded from a file. -/
inductive ConfigError where
  | unreadable (path : String) (fault : FileFault)
  | malformed (fault : Config.Fault)
deriving DecidableEq, Repr, Inhabited

def ConfigError.message : ConfigError → String
  | unreadable path fault => "cannot read config file " ++ path ++ ": " ++ fault.message
  | malformed fault => fault.message

def ConfigError.causes : ConfigError → List String
  | e@(unreadable _ fault) => [e.message, fault.message]
  | e@(malformed _) => [e.message]

/-- A configuration from what reading its file has given. -/
def configOf (path : String) : Except FileFault String → Except ConfigError Config
  | .error fault => .error (.unreadable path fault)
  | .ok text =>
    match Config.parse text with
    | .ok config => .ok config
    | .error fault => .error (.malformed fault)

/-! ### Commands -/

section

variable {m : Type → Type} [Monad m] [Host m]

/-- A command that can fail. -/
abbrev Attempt (m : Type → Type) := ExceptT Failure m

/-- The configuration that the options ask for. -/
def loadConfig (o : Options) : Attempt m Config := do
  let config ←
    match o.config? with
    | none => pure {}
    | some path =>
      match configOf path (← Host.readText path) with
      | .ok config => pure config
      | .error e => throw { message := "failed to load config: " ++ path, causes := e.causes }
  return { config with color := config.color && !o.noColor, dumpIr := config.dumpIr || o.dumpIr }

def readSource (path : String) : Attempt m Source := do
  match ← Host.readText path with
  | .ok text => return ⟨path, text⟩
  | .error fault => throw (.unreadable path fault)

/-- Writes what was told while compiling a source. -/
def tell (verbose : Bool) (config : Config) (source : Source) (events : List Event) :
    Attempt m Unit :=
  Host.report (String.join (events.map (eventText verbose config source)))

/-- Fails if a unit of a source has failed. -/
def succeed (source : Source) (reports : List Report) : Attempt m Unit :=
  match reports.filterMap fun report => report.outcome.diagnostic? with
  | [] => pure ()
  | diagnostics => throw { message := Failed.message ⟨source.name, diagnostics⟩ }

/-- Compiles and evaluates a source, and prints the values of its expressions. -/
def execute (verbose : Bool) (config : Config) (source : Source) : Attempt m Unit := do
  let (reports, _) := (Compiler.ofConfig config).withMachine.compile source.text
  for report in reports do
    tell verbose config source report.events
    if let some value := report.outcome.value? then
      Host.print (value.describe ++ "\n")
  succeed source reports

/-- Compiles a source without evaluating it, and gives the text of its module. -/
def emit (verbose : Bool) (config : Config) (source : Source) : Attempt m String := do
  let (reports, compiler) := (Compiler.ofConfig config).compile source.text
  tell verbose config source (reports.flatMap Report.events)
  succeed source reports
  return compiler.module.text

/-- The version of the language. -/
def version : String := "0.3.0"

/-- Reads at most `n` lines and answers them. -/
def converse (verbose : Bool) : Nat → Repl → Attempt m Unit
  | 0, _ => pure ()
  | n + 1, repl => do
    if ← Host.isTyped then
      Host.print "ready> "
    else
      tell verbose repl.config ⟨Repl.sourceName, ""⟩ [.debug "stdin is not a tty"]
    match ← Host.readLine with
    | none => pure ()
    | some line =>
      let some line := Repl.lineText? line | throw Failure.uneditable
      if (trimBlanks line.toList).isEmpty then
        converse verbose n repl
      else
        let (reply, repl) := repl.evalLine line
        tell verbose repl.config ⟨Repl.sourceName, line⟩ reply.events
        for text in reply.output do
          Host.print (text ++ "\n")
        if reply.exit then pure () else converse verbose n repl

/-- No session reads more lines than this. -/
def maxLines : Nat := 0x4000000000000000

/-- Carries out a command. -/
def perform (o : Options) (command : Command) : Attempt m Unit := do
  let config ← loadConfig o
  match command with
  | .emit file output? =>
    let text ← emit o.verbose config (← readSource file)
    match output? with
    | none => Host.print text
    | some path =>
      match ← Host.writeText path text with
      | .ok () => pure ()
      | .error fault => throw { message := "failed to write IR: " ++ path, causes := [fault.message] }
  | .run file => execute o.verbose config (← readSource file)
  | .eval code => execute o.verbose config ⟨"<eval>", code⟩
  | .check file =>
    discard <| emit o.verbose config (← readSource file)
    Host.report (file ++ ": no errors\n")
  | .repl =>
    Host.print ("mc " ++ version ++ " - type :help for assistance\n")
    converse o.verbose maxLines (Repl.start config)

/-! ### The program -/

def usage : String :=
  "\n".intercalate
    ["Usage: mc [OPTIONS] <COMMAND>",
      "",
      "Commands:",
      "  emit FILE [-o OUT]  Compile a source file and print its IR module",
      "  run FILE            Run a source file, printing every top-level expression's value",
      "  eval CODE           Evaluate code from the command line",
      "  check FILE          Check a source file for errors without running it",
      "  repl                Start an interactive session",
      "  help                Print this message",
      "",
      "Options:",
      "  -v, --verbose       Enable verbose output",
      "      --config FILE   TOML configuration file",
      "      --no-color      Disable colored diagnostics",
      "      --dump-ir       Print the IR of every compiled unit to stderr",
      "  -h, --help          Print help",
      "  -V, --version       Print version",
      ""]

/-- Carries out a command line, and gives its exit status: 0 for success, that of the failure, or 2
for a command line that cannot be understood. -/
def run (words : List String) : m UInt32 := do
  match Request.ofWords words with
  | .error .noCommand =>
    Host.report usage
    return 2
  | .error e =>
    Host.report ("error: " ++ e.message ++ "\n\nFor more information, try '--help'.\n")
    return 2
  | .ok .help =>
    Host.print usage
    return 0
  | .ok .version =>
    Host.print ("mc " ++ version ++ "\n")
    return 0
  | .ok (.perform options command) =>
    match ← (perform options command).run with
    | .ok () => return 0
    | .error failure =>
      Host.report failure.text
      return failure.status

end

end CommandLine

end ScalarLang
