/-!
# Binary operators and how tightly they bind

* `Operator` — the ten operators of the language.
* `PrecedenceTable` — a table of operator symbols in the order of their first entry.
* `PrecedenceTable.precedence?` — the binding strength of a symbol; a symbol whose number is not
  positive is no binary operator.
-/

namespace ScalarLang

inductive Operator where
  | add
  | sub
  | mul
  | div
  | lt
  | gt
  | le
  | ge
  | eq
  | ne
deriving DecidableEq, Repr, Inhabited

namespace Operator

/-- The operators in their fixed order. -/
def all : List Operator := [add, sub, mul, div, lt, gt, le, ge, eq, ne]

def symbol : Operator → String
  | add => "+"
  | sub => "-"
  | mul => "*"
  | div => "/"
  | lt => "<"
  | gt => ">"
  | le => "<="
  | ge => ">="
  | eq => "=="
  | ne => "!="

/-- The operator written as `symbol`. -/
def ofSymbol? (symbol : String) : Option Operator :=
  all.find? fun op => op.symbol == symbol

def isComparison : Operator → Bool
  | add | sub | mul | div => false
  | lt | gt | le | ge | eq | ne => true

end Operator

/-- Binding strengths of operator symbols, each symbol at most once. -/
structure PrecedenceTable where
  entries : List (String × Int)
deriving DecidableEq, Repr, Inhabited

namespace PrecedenceTable

/-- The table in which no symbol is an operator. -/
def empty : PrecedenceTable := ⟨[]⟩

/-- Replaces the number at the first entry of `symbol`, or adds an entry at the end. -/
def insertInto (symbol : String) (value : Int) : List (String × Int) → List (String × Int)
  | [] => [(symbol, value)]
  | (s, v) :: rest =>
    if s = symbol then (s, value) :: rest else (s, v) :: insertInto symbol value rest

/-- Sets the binding strength of a symbol; a symbol that is already there keeps its place. -/
def insert (t : PrecedenceTable) (symbol : String) (value : Int) : PrecedenceTable :=
  ⟨insertInto symbol value t.entries⟩

/-- The table with the given entries, a later one for a symbol replacing an earlier one. -/
def ofList (l : List (String × Int)) : PrecedenceTable :=
  l.foldl (fun t e => t.insert e.1 e.2) empty

/-- The binding strength of a symbol, if it acts as a binary operator. -/
def precedence? (t : PrecedenceTable) (symbol : String) : Option Int :=
  (t.entries.lookup symbol).filter (0 < ·)

def size (t : PrecedenceTable) : Nat := t.entries.length

def isEmpty (t : PrecedenceTable) : Bool := t.entries.isEmpty

/-- Do two tables give every symbol the same number?  Their order does not matter. -/
def sameEntries (a b : PrecedenceTable) : Bool :=
  a.size == b.size && a.entries.all fun e => b.entries.lookup e.1 == some e.2

/-- Comparisons bind loosest, then sums, then products. -/
def standard : PrecedenceTable :=
  ofList [("<", 10), (">", 10), ("<=", 10), (">=", 10), ("==", 10), ("!=", 10), ("+", 20),
    ("-", 20), ("*", 40), ("/", 40)]

end PrecedenceTable

end ScalarLang
