import ScalarLang.Compiler
import ScalarLang.Text.Cluster

/-!
# Interactive lines

Every line typed at the prompt is a source text of its own, compiled by one compiler, so that
definitions stay from line to line.  A line that starts with a colon is a command.

* `Repl.evalLine` — what a line leads to.
* `Repl.lineText?` — the text of a line that was read.
* `Repl.Reply` — what is shown, what those who watch are told, and whether to leave.
-/

namespace ScalarLang

structure Repl where
  config : Config
  compiler : Compiler
deriving Inhabited

namespace Repl

/-- The name under which lines are quoted in diagnostics. -/
def sourceName : String := "<repl>"

/-- What the command `:help` shows. -/
def help : String :=
  "\n".intercalate
    ["Enter definitions (`def int f(int x) x * 2`) or expressions (`f(21)`).",
      "Commands:",
      "  :ir      print the module IR",
      "  :reset   forget all definitions",
      "  :help    show this message",
      "  :quit    leave the REPL"]

/-- A prompt without definitions. -/
def start (config : Config) : Repl := ⟨config, (Compiler.ofConfig config).withMachine⟩

/-- What a line leads to. -/
structure Reply where
  output : List String := []
  events : List Event := []
  exit : Bool := false
deriving DecidableEq, Repr, Inhabited

/-- What is shown of a unit; failures are told to those who watch. -/
def shown : Outcome → Option String
  | .definition name _ => some ("defined " ++ name)
  | .expression _ (some value) => some value.describe
  | .expression listing none => some listing
  | .failure _ => none

/-- Carries out a command. -/
def command (r : Repl) (name : String) : Reply × Repl :=
  match name with
  | "q" | "quit" | "exit" => ({ exit := true }, r)
  | "ir" => ({ output := [r.compiler.module.text] }, r)
  | "reset" => ({ output := ["all definitions cleared"] }, start r.config)
  | "h" | "help" => ({ output := [help] }, r)
  | other => ({ output := ["unknown command ':" ++ other ++ "', try :help"] }, r)

/-- Compiles a line, or carries out the command that it holds. -/
def evalLine (r : Repl) (line : String) : Reply × Repl :=
  match trimBlanks line.toList with
  | ':' :: name => r.command (String.ofList (trimBlanks name))
  | _ =>
    let (reports, compiler) := r.compiler.compile line
    ({ output := reports.filterMap fun report => shown report.outcome,
       events := reports.flatMap Report.events },
      { r with compiler })

/-! ### Lines -/

/-- What has been typed so far, and the sizes of its clusters in bytes; the last comes first.  A size
is kept in one byte, so a cluster of 256 bytes or more is taken for a shorter one. -/
structure Typed where
  text : List Char := []
  sizes : List UInt8 := []
deriving DecidableEq, Repr, Inhabited

/-- The size of a text in bytes. -/
def byteSize (cs : List Char) : Nat := cs.foldl (fun n c => n + c.utf8Size) 0

/-- Takes away characters of this many bytes; `none` if that cuts a character apart. -/
def dropBytes? : Nat → List Char → Option (List Char)
  | 0, cs => some cs
  | _ + 1, [] => none
  | n + 1, c :: cs => if n + 1 < c.utf8Size then none else dropBytes? (n + 1 - c.utf8Size) cs

/-- Types a cluster. -/
def Typed.push (t : Typed) (cluster : List Char) : Typed :=
  ⟨cluster.reverse ++ t.text, (byteSize cluster).toUInt8 :: t.sizes⟩

/-- Takes the last cluster away. -/
def Typed.pop? (t : Typed) : Option Typed :=
  match t.sizes with
  | [] => some t
  | size :: sizes => (dropBytes? size.toNat t.text).map fun text => ⟨text, sizes⟩

/-- Lets every backspace take away the cluster before it; `none` if one cuts a character apart. -/
def applyBackspaces? (line : List Char) : Option (List Char) := do
  let typed ← (clusters line).foldlM (fun (t : Typed) cluster =>
    if cluster = ['\x08'] then t.pop? else some (t.push cluster)) {}
  return typed.text.reverse

/-- The text of a line that was read, without its line end; `none` if it cannot be edited. -/
def lineText? (line : String) : Option String :=
  let cs :=
    match line.toList.reverse with
    | '\n' :: '\r' :: rest => rest.reverse
    | '\n' :: rest => rest.reverse
    | _ => line.toList
  (applyBackspaces? cs).map String.ofList

end Repl

end ScalarLang
