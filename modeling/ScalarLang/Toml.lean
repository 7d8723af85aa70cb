import ScalarLang.Double

/-!
# TOML documents

A document is a tree of named values.  A table remembers how it came into being, because that decides
which later lines may still add to it:

* a table with a header of its own, `[a]`, takes the lines below that header, and no second header;
* a table that a header only passes through, like `a` in `[a.b]`, may get its own header later;
* a table that dotted keys have made, like `a` in `a.b = 1`, takes further dotted keys only;
* an inline table is complete where it stands.

* `Toml.Value` — the values; `Toml.Origin` — how a table came into being.
* `Toml.reach` — changes the table at a path.
* `Toml.insert`, `Toml.openTable`, `Toml.openElement` — what a line does to a document.
-/

namespace ScalarLang

namespace Toml

/-- How a table came into being. -/
inductive Origin where
  | header
  | passed
  | dotted
  | inline
deriving DecidableEq, Repr, Inhabited

inductive Value where
  | string (text : String)
  | integer (value : Int)
  | float (value : Double)
  | boolean (value : Bool)
  | moment (text : String)
  | array (items : List Value)
  | table (origin : Origin) (entries : List (String × Value))
  | tables (elements : List (List (String × Value)))
deriving Repr, Inhabited

/-- The entries of a table, in the order in which they were written. -/
abbrev Entries := List (String × Value)

/-- Why a document cannot be read. -/
inductive Fault where
  | unexpected (found? : Option Char) (expected : String)
  | unknownEscape (char : Char)
  | notACharacter
  | outOfRange
  | tooDeep
  | duplicateKey (key : String)
  | notATable (key : String)
deriving DecidableEq, Repr, Inhabited

def Fault.message : Fault → String
  | unexpected none expected => "unexpected end of text, expected " ++ expected
  | unexpected (some c) expected => "unexpected '" ++ c.toString ++ "', expected " ++ expected
  | unknownEscape c => "unknown escape sequence '\\" ++ c.toString ++ "'"
  | notACharacter => "not a character code"
  | outOfRange => "number out of range"
  | tooDeep => "nested too deeply"
  | duplicateKey key => "duplicate key '" ++ key ++ "'"
  | notATable key => "'" ++ key ++ "' is not a table"

/-- What is found in place of something expected. -/
def unexpected {α : Type} (found : List Char) (expected : String) : Except Fault α :=
  .error (.unexpected found.head? expected)

/-! ### Tables -/

/-- Gives a key that is present another value. -/
def Entries.replace (entries : Entries) (key : String) (value : Value) : Entries :=
  entries.map fun entry => if entry.1 = key then (key, value) else entry

/-- Changes the table at a path, making the tables on the way that are not there.  Of an array of
tables the last one is meant.  A path of dotted keys does not lead through a table that has a header. -/
def reach (byDots : Bool) (edit : Origin → Entries → Except Fault Entries) :
    List String → Origin → Entries → Except Fault Entries
  | [], origin, entries => edit origin entries
  | key :: path, _, entries =>
    match entries.lookup key with
    | none => do
      let origin : Origin := if byDots then .dotted else .passed
      let inner ← reach byDots edit path origin []
      return entries ++ [(key, .table origin inner)]
    | some (.table .inline _) => .error (.notATable key)
    | some (.table .header inner) => do
      if byDots then throw (.duplicateKey key)
      let inner ← reach byDots edit path .header inner
      return entries.replace key (.table .header inner)
    | some (.table origin inner) => do
      let inner ← reach byDots edit path origin inner
      return entries.replace key (.table origin inner)
    | some (.tables elements) => do
      let last ← reach byDots edit path .header (elements.getLast?.getD [])
      return entries.replace key (.tables (elements.dropLast ++ [last]))
    | some _ => .error (.notATable key)

/-- Adds an entry under dotted keys.  The last table on the way has to be one that dotted keys have
made. -/
def insert (path : List String) (key : String) (value : Value) :
    Origin → Entries → Except Fault Entries :=
  reach true (fun origin entries =>
    if !path.isEmpty && origin != .dotted then .error (.duplicateKey key)
    else if (entries.lookup key).isSome then .error (.duplicateKey key)
    else .ok (entries ++ [(key, value)])) path

/-- Gives the table at a path its header. -/
def openTable (path : List String) (key : String) (root : Entries) : Except Fault Entries :=
  reach false (fun _ entries =>
    match entries.lookup key with
    | none => .ok (entries ++ [(key, .table .header [])])
    | some (.table .passed inner) => .ok (entries.replace key (.table .header inner))
    | some _ => .error (.duplicateKey key)) path .header root

/-- Adds a table to the array of tables at a path. -/
def openElement (path : List String) (key : String) (root : Entries) : Except Fault Entries :=
  reach false (fun _ entries =>
    match entries.lookup key with
    | none => .ok (entries ++ [(key, .tables [[]])])
    | some (.tables elements) => .ok (entries.replace key (.tables (elements ++ [[]])))
    | some _ => .error (.duplicateKey key)) path .header root

end Toml

end ScalarLang
