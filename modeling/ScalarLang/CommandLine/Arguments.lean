/-!
# Arguments of the command line

The words of a command line are the options of the program, the name of a command, and the options and
arguments of that command.  The options of the program may also stand behind the name of the command,
where they win.  Words are taken one after the other, and the first that does not fit decides.

* `Command` — what is to be done; `Options` — how.
* `Request` — what a command line asks for.
* `Request.ofWords` — the request of a command line.
-/

namespace ScalarLang

namespace CommandLine

structure Options where
  verbose : Bool := false
  noColor : Bool := false
  dumpIr : Bool := false
  config? : Option String := none
deriving DecidableEq, Repr, Inhabited

/-- The options of the program with those behind the name of the command. -/
def Options.merge (outer inner : Options) : Options :=
  { verbose := outer.verbose || inner.verbose
    noColor := outer.noColor || inner.noColor
    dumpIr := outer.dumpIr || inner.dumpIr
    config? := inner.config?.or outer.config? }

inductive Command where
  | emit (file : String) (output? : Option String)
  | run (file : String)
  | eval (code : String)
  | check (file : String)
  | repl
deriving DecidableEq, Repr, Inhabited

/-- What a command line asks for. -/
inductive Request where
  | help
  | version
  | perform (options : Options) (command : Command)
deriving DecidableEq, Repr, Inhabited

/-- Why a command line asks for nothing. -/
inductive UsageError where
  | noCommand
  | unknownCommand (name : String)
  | unknownOption (word : String)
  | repeatedOption (name : String)
  | missingValue (name : String)
  | unwantedValue (name : String)
  | missingArgument (name : String)
  | unwantedArgument (word : String)
deriving DecidableEq, Repr, Inhabited

def UsageError.message : UsageError → String
  | noCommand => "a command is required"
  | unknownCommand name => "unrecognized command '" ++ name ++ "'"
  | unknownOption word => "unexpected option '" ++ word ++ "'"
  | repeatedOption name => "the option '" ++ name ++ "' cannot be used multiple times"
  | missingValue name => "a value is required for '" ++ name ++ "'"
  | unwantedValue name => "the option '" ++ name ++ "' takes no value"
  | missingArgument name => "the argument <" ++ name ++ "> is required"
  | unwantedArgument word => "unexpected argument '" ++ word ++ "'"

/-! ### Options -/

inductive Flag where
  | verbose
  | noColor
  | dumpIr
  | config
  | output
  | help
  | version
deriving DecidableEq, Repr, Inhabited

/-- The long name of an option. -/
def Flag.name : Flag → String
  | verbose => "--verbose"
  | noColor => "--no-color"
  | dumpIr => "--dump-ir"
  | config => "--config"
  | output => "--output"
  | help => "--help"
  | version => "--version"

def Flag.takesValue : Flag → Bool
  | config | output => true
  | _ => false

/-- The commands by name. -/
inductive Verb where
  | emit
  | run
  | eval
  | check
  | repl
deriving DecidableEq, Repr, Inhabited

def Verb.ofName? : String → Option Verb
  | "emit" => some .emit
  | "run" => some .run
  | "eval" => some .eval
  | "check" => some .check
  | "repl" => some .repl
  | _ => none

/-- The argument of a command, if it has one. -/
def Verb.argument? : Verb → Option String
  | repl => none
  | eval => some "CODE"
  | _ => some "FILE"

/-- Is an option known before the name of the command (`none`) or behind it? -/
def Flag.isKnown (verb? : Option Verb) : Flag → Bool
  | output => verb? == some .emit
  | version => verb?.isNone
  | _ => true

def Flag.ofLong? (verb? : Option Verb) (name : String) : Option Flag :=
  let flags := [verbose, noColor, dumpIr, config, output, help, version]
  flags.find? fun flag => flag.name = name && flag.isKnown verb?

def Flag.ofShort? (verb? : Option Verb) (c : Char) : Option Flag :=
  let flag? : Option Flag :=
    match c with
    | 'v' => some verbose
    | 'o' => some output
    | 'h' => some help
    | 'V' => some version
    | _ => none
  flag?.filter fun flag => flag.isKnown verb?

/-! ### Words -/

/-- Why the words of a command line are not read to the end. -/
inductive Stop where
  | help
  | version
  | usage (error : UsageError)
deriving DecidableEq, Repr, Inhabited

def refuse {α : Type} (error : UsageError) : Except Stop α := .error (.usage error)

/-- What has been read.  `pending?` is an option that waits for its value. -/
structure Words where
  options : Options := {}
  output? : Option String := none
  argument? : Option String := none
  pending? : Option Flag := none
deriving DecidableEq, Repr, Inhabited

namespace Words

/-- Sets an option that takes no value. -/
def setFlag (w : Words) (flag : Flag) : Except Stop Words :=
  let o := w.options
  let once (given : Bool) (options : Options) : Except Stop Words :=
    if given then refuse (.repeatedOption flag.name) else .ok { w with options }
  match flag with
  | .verbose => once o.verbose { o with verbose := true }
  | .noColor => once o.noColor { o with noColor := true }
  | .dumpIr => once o.dumpIr { o with dumpIr := true }
  | .help => .error .help
  | .version => .error .version
  | _ => .ok { w with pending? := some flag }

/-- Sets an option to a value, which is a path and not empty. -/
def setValue (w : Words) (flag : Flag) (value : String) : Except Stop Words :=
  let given :=
    match flag with
    | .output => w.output?
    | _ => w.options.config?
  if given.isSome then refuse (.repeatedOption flag.name)
  else if value = "" then refuse (.missingValue flag.name)
  else
    match flag with
    | .output => .ok { w with output? := some value, pending? := none }
    | _ => .ok { w with options := { w.options with config? := some value }, pending? := none }

/-- Takes a long option, with its value behind an equals sign if it has one there. -/
def long (w : Words) (verb? : Option Verb) (word : List Char) : Except Stop Words :=
  let name := String.ofList (word.takeWhile (· != '='))
  match Flag.ofLong? verb? name, word.dropWhile (· != '=') with
  | none, _ => refuse (.unknownOption name)
  | some flag, [] => w.setFlag flag
  | some flag, _ :: value =>
    if flag.takesValue then w.setValue flag (String.ofList value) else refuse (.unwantedValue name)

/-- Takes short options that are written together; a value ends them. -/
def short (w : Words) (verb? : Option Verb) : List Char → Except Stop Words
  | [] => .ok w
  | c :: rest =>
    match Flag.ofShort? verb? c with
    | none => refuse (.unknownOption (String.ofList ['-', c]))
    | some flag =>
      if flag.takesValue && !rest.isEmpty then
        w.setValue flag (String.ofList (if rest.head? = some '=' then rest.tail else rest))
      else do
        let w ← w.setFlag flag
        w.short verb? rest

/-- Takes an argument of a command.  A file has a name. -/
def argument (w : Words) (verb : Verb) (word : String) : Except Stop Words :=
  match verb.argument? with
  | none => refuse (.unwantedArgument word)
  | some name =>
    if w.argument?.isSome then refuse (.unwantedArgument word)
    else if word = "" ∧ verb ≠ .eval then refuse (.missingArgument name)
    else .ok { w with argument? := some word }

/-- Does a word start an option? -/
def isOption (word : String) : Bool := word.toList.head? = some '-' ∧ word ≠ "-"

/-- Takes an option. -/
def option (w : Words) (verb? : Option Verb) (word : String) : Except Stop Words :=
  match w.pending? with
  | some flag => refuse (.missingValue flag.name)
  | none =>
    match word.toList with
    | '-' :: '-' :: _ => w.long verb? word.toList
    | _ :: rest => w.short verb? rest
    | [] => .ok w

/-- Takes the words behind the name of a command.  Behind `--` all words are arguments. -/
def behind (verb : Verb) : Words → List String → Except Stop Words
  | w, [] =>
    match w.pending? with
    | some flag => refuse (.missingValue flag.name)
    | none => .ok w
  | w, word :: rest =>
    match w.pending? with
    | some flag => if isOption word then refuse (.missingValue flag.name)
        else do behind verb (← w.setValue flag word) rest
    | none =>
      if word = "--" then rest.foldlM (fun w word => w.argument verb word) w
      else if isOption word then do behind verb (← w.option (some verb) word) rest
      else do behind verb (← w.argument verb word) rest

/-- The command that the words behind its name describe. -/
def command (w : Words) (verb : Verb) : Except Stop Command :=
  match verb, w.argument? with
  | .emit, some file => .ok (.emit file w.output?)
  | .run, some file => .ok (.run file)
  | .eval, some code => .ok (.eval code)
  | .check, some file => .ok (.check file)
  | .repl, _ => .ok .repl
  | verb, none => refuse (.missingArgument (verb.argument?.getD ""))

/-- Asks for help, perhaps about a command. -/
def helpAbout : List String → Stop
  | [] => .help
  | [name] =>
    if name = "help" ∨ (Verb.ofName? name).isSome then .help else .usage (.unknownCommand name)
  | name :: _ => .usage (.unknownCommand name)

/-- Takes the words up to the name of a command, and those behind it. -/
def upTo : Words → List String → Except Stop (Options × Command)
  | w, [] => refuse (w.pending?.elim .noCommand fun flag => .missingValue flag.name)
  | w, word :: rest =>
    match w.pending? with
    | some flag => if isOption word then refuse (.missingValue flag.name)
        else do upTo (← w.setValue flag word) rest
    | none =>
      match Verb.ofName? word with
      | some verb => do
        let inner ← behind verb {} rest
        return (w.options.merge inner.options, ← inner.command verb)
      | none =>
        if word = "help" then .error (helpAbout rest)
        else if word = "--" then refuse (rest.head?.elim .noCommand .unknownCommand)
        else if isOption word then do upTo (← w.option none word) rest
        else refuse (.unknownCommand word)

end Words

/-- The request of a command line. -/
def Request.ofWords (words : List String) : Except UsageError Request :=
  match Words.upTo {} words with
  | .ok (options, command) => .ok (.perform options command)
  | .error .help => .ok .help
  | .error .version => .ok .version
  | .error (.usage error) => .error error

end CommandLine

end ScalarLang
