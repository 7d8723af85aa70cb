import ScalarLang.Config
import ScalarLang.Toml.Document

/-!
# Configurations as TOML documents

Every key of a configuration may be missing, and other keys are ignored.

* `Config.parse` — the configuration that a document describes.
-/

namespace ScalarLang

namespace Config

/-- Why a document does not describe a configuration. -/
inductive Fault where
  | document (fault : Toml.Fault)
  | wrongType (key expected : String)
deriving DecidableEq, Repr, Inhabited

def Fault.message : Fault → String
  | document fault => "config parse error: " ++ fault.message
  | wrongType key expected => "config parse error: '" ++ key ++ "' must be " ++ expected

/-- The value of a key, or a default if the key is missing. -/
def field {α : Type} (entries : Toml.Entries) (key expected : String) (read : Toml.Value → Option α)
    (default : α) : Except Fault α :=
  match entries.lookup key with
  | none => .ok default
  | some value =>
    match read value with
    | some a => .ok a
    | none => .error (.wrongType key expected)

def text? : Toml.Value → Option String
  | .string text => some text
  | _ => none

def flag? : Toml.Value → Option Bool
  | .boolean value => some value
  | _ => none

def depth? : Toml.Value → Option Nat
  | .integer value => if 0 ≤ value then some value.toNat else none
  | _ => none

/-- A precedence, which fits into 32 bits. -/
def level? : Toml.Value → Option Int
  | .integer value => if -0x80000000 ≤ value ∧ value < 0x80000000 then some value else none
  | _ => none

/-- A precedence table; it stands in place of the standard one. -/
def table? : Toml.Value → Option PrecedenceTable
  | .table _ entries => do
    let pairs ← entries.mapM fun entry => do return (entry.1, ← level? entry.2)
    return .ofList pairs
  | _ => none

/-- The configuration that the entries of a document describe. -/
def ofEntries (entries : Toml.Entries) : Except Fault Config := do
  let default : Config := {}
  return {
    precedence := ← field entries "precedence" "a table of integers" table? default.precedence
    moduleName := ← field entries "module_name" "a string" text? default.moduleName
    maxCallDepth := ← field entries "max_call_depth" "a natural number" depth? default.maxCallDepth
    color := ← field entries "color" "a boolean" flag? default.color
    dumpIr := ← field entries "dump_ir" "a boolean" flag? default.dumpIr }

/-- The configuration that a document describes. -/
def parse (text : String) : Except Fault Config :=
  match Toml.parse text with
  | .error fault => .error (.document fault)
  | .ok entries => ofEntries entries

end Config

end ScalarLang
