import ScalarLang.Toml.Scalar

/-!
# Reading TOML documents

* `Toml.value` — a value, with the values in it.
* `Toml.parse` — a document, line by line.
-/

namespace ScalarLang

namespace Toml

/-! ### Arrays and inline tables -/

/-- The rest of an array behind its bracket or behind a comma, of at most `n` items. -/
def arrayRest (item : Reader Value) : Nat → Reader (List Value)
  | 0, cs => unexpected cs "]"
  | n + 1, cs => do
    match ← skipLayout false cs with
    | ']' :: rest => return ([], rest)
    | cs =>
      let (value, rest) ← item cs
      match ← skipLayout false rest with
      | ']' :: rest => return ([value], rest)
      | ',' :: rest =>
        let (values, rest) ← arrayRest item n rest
        return (value :: values, rest)
      | rest => unexpected rest "]"

/-- A key, an equals sign and a value. -/
def entry (item : Reader Value) (cs : List Char) :
    Except Fault ((List String × String) × Value × List Char) := do
  let (key, rest) ← keyPath maxDepth cs
  match rest with
  | '=' :: rest =>
    let (value, rest) ← item (skipSpaces rest)
    return (key, value, rest)
  | _ => unexpected rest "="

/-- The rest of an inline table from an entry on, of at most `n` entries, added to what is before. -/
def inlineRest (item : Reader Value) : Nat → Entries → Reader Entries
  | 0, _, cs => unexpected cs "\x7d"
  | n + 1, entries, cs => do
    let ((path, key), value, rest) ← entry item cs
    let entries ← insert path key value .inline entries
    match skipSpaces rest with
    | '\x7d' :: rest => return (entries, rest)
    | ',' :: rest => inlineRest item n entries rest
    | rest => unexpected rest "\x7d"

/-- A value that holds at most `depth` levels of other values. -/
def value : Nat → Reader Value
  | 0, cs =>
    match cs with
    | '[' :: _ => .error .tooDeep
    | '\x7b' :: _ => .error .tooDeep
    | _ => scalar cs
  | depth + 1, cs =>
    match cs with
    | '[' :: rest => do
      let (items, rest) ← arrayRest (value depth) cs.length rest
      return (.array items, rest)
    | '\x7b' :: rest =>
      match skipSpaces rest with
      | '\x7d' :: rest => .ok (.table .inline [], rest)
      | _ => do
        let (entries, rest) ← inlineRest (value depth) cs.length [] rest
        return (.table .inline entries, rest)
    | _ => scalar cs

/-! ### Lines -/

/-- What has been read of a document, and the path of the table that the next entries belong to. -/
structure State where
  root : Entries := []
  current : List String := []
deriving Repr, Inhabited

/-- Reads a header behind its opening bracket. -/
def tableHeader (s : State) (cs : List Char) : Except Fault (State × List Char) := do
  let ((path, key), rest) ← keyPath maxDepth cs
  match rest with
  | ']' :: rest =>
    let rest ← lineEnd rest
    return (⟨← openTable path key s.root, path ++ [key]⟩, rest)
  | _ => unexpected rest "]"

/-- Reads a header of an array of tables behind its opening brackets. -/
def elementHeader (s : State) (cs : List Char) : Except Fault (State × List Char) := do
  let ((path, key), rest) ← keyPath maxDepth cs
  match rest with
  | ']' :: ']' :: rest =>
    let rest ← lineEnd rest
    return (⟨← openElement path key s.root, path ++ [key]⟩, rest)
  | _ => unexpected rest "]]"

/-- Reads an entry of the current table. -/
def entryLine (s : State) (cs : List Char) : Except Fault (State × List Char) := do
  let ((path, key), value, rest) ← entry (value maxDepth) cs
  let rest ← lineEnd rest
  let root ← reach false (insert path key value) s.current .header s.root
  return ({ s with root }, rest)

/-- Reads at most `n` lines. -/
def lines : Nat → State → List Char → Except Fault Entries
  | 0, s, _ => .ok s.root
  | n + 1, s, cs =>
    match skipSpaces cs with
    | [] => .ok s.root
    | c :: rest =>
      if c == '\n' || c == '\r' || c == '#' then do
        lines n s (← lineEnd (c :: rest))
      else do
        let (s, rest) ←
          match c, rest with
          | '[', '[' :: rest => elementHeader s rest
          | '[', rest => tableHeader s rest
          | _, _ => entryLine s (c :: rest)
        lines n s rest

/-- Reads a document.  A byte order mark in front of it is skipped. -/
def parse (text : String) : Except Fault Entries :=
  let cs :=
    match text.toList with
    | '\uFEFF' :: rest => rest
    | cs => cs
  lines (cs.length + 1) {} cs

end Toml

end ScalarLang
