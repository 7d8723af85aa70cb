import ScalarLang.Toml.Number
import ScalarLang.Toml.Quoted

/-!
# Simple values and keys of TOML

* `Toml.scalar` — a value that holds no other values.
* `Toml.keyPath` — keys with dots between them.
-/

namespace ScalarLang

namespace Toml

/-! ### Simple values -/

/-- A value that holds no other values. -/
def scalar (cs : List Char) : Except Fault (Value × List Char) :=
  match cs with
  | 't' :: 'r' :: 'u' :: 'e' :: rest => .ok (.boolean true, rest)
  | 'f' :: 'a' :: 'l' :: 's' :: 'e' :: rest => .ok (.boolean false, rest)
  | c :: _ =>
    if c == '"' || c == '\'' then (quoted cs).map fun r => (.string r.1, r.2)
    else
      match moment? cs with
      | some rest => .ok (.moment (String.ofList (cs.take (cs.length - rest.length))), rest)
      | none => number cs
  | [] => unexpected [] "value"

/-! ### Keys -/

def isBare (c : Char) : Bool := c.isAlphanum || c == '_' || c == '-'

/-- A key without dots, bare or in quotes. -/
def simpleKey (cs : List Char) : Except Fault (String × List Char) :=
  match cs with
  | '"' :: rest => (basicText rest).map fun r => (String.ofList r.1, r.2)
  | '\'' :: rest => (literalText rest).map fun r => (String.ofList r.1, r.2)
  | _ =>
    let text := cs.takeWhile isBare
    if text.isEmpty then unexpected cs "key" else .ok (String.ofList text, cs.dropWhile isBare)

/-- A key of at most `n` parts with dots between them: the parts before the last, and the last. -/
def keyPath : Nat → Reader (List String × String)
  | 0, _ => .error .tooDeep
  | n + 1, cs => do
    let (key, rest) ← simpleKey (skipSpaces cs)
    match skipSpaces rest with
    | '.' :: rest =>
      let ((path, last), rest) ← keyPath n rest
      return ((key :: path, last), rest)
    | rest => return (([], key), rest)

/-- The number of levels to which keys and values may be nested. -/
def maxDepth : Nat := 79

end Toml

end ScalarLang
