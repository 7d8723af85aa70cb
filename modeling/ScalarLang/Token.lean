import ScalarLang.Double.Text
import ScalarLang.Source

/-!
# Tokens

* `Token.Kind` — the kinds of tokens: six reserved words, names, literals, operators, single
  characters and the end of the input.
* `Token.Kind.describe` — a token as error messages name it.
* `LexError` — a number literal that is not one, or is too large.
-/

namespace ScalarLang

namespace Token

/-- What a token is, apart from its place. -/
inductive Kind where
  | kwDef
  | kwIf
  | kwThen
  | kwElse
  | kwInt
  | kwDouble
  | identifier (name : String)
  | intLiteral (value : Int64)
  | floatLiteral (value : Double)
  | operator (symbol : String)
  | char (c : Char)
  | eof
deriving DecidableEq, Repr, Inhabited

namespace Kind

/-- The reserved words with their tokens. -/
def reserved : List (String × Kind) :=
  [("def", kwDef), ("if", kwIf), ("then", kwThen), ("else", kwElse), ("int", kwInt),
    ("double", kwDouble)]

/-- The token of a reserved word. -/
def ofReserved? (word : String) : Option Kind := reserved.lookup word

/-- The token of a word: reserved, or a name. -/
def ofWord (word : String) : Kind := (ofReserved? word).getD (identifier word)

/-- Are two tokens the same as far as the grammar can see?  Double literals are compared as numbers,
so one that is not a number differs from itself. -/
def same : Kind → Kind → Bool
  | floatLiteral a, floatLiteral b => a.numEq b
  | a, b => a == b

/-- A token as messages name it. -/
def describe : Kind → String
  | kwDef => "'def'"
  | kwIf => "'if'"
  | kwThen => "'then'"
  | kwElse => "'else'"
  | kwInt => "'int'"
  | kwDouble => "'double'"
  | identifier name => "identifier '" ++ name ++ "'"
  | intLiteral value => "integer literal " ++ value.toInt.repr
  | floatLiteral value => "float literal " ++ value.describe
  | operator symbol => "operator '" ++ symbol ++ "'"
  | char c => "'" ++ c.toString ++ "'"
  | eof => "end of input"

end Kind

end Token

/-- A token and its place. -/
structure Token where
  kind : Token.Kind
  span : Span
deriving DecidableEq, Repr, Inhabited

/-- What is wrong with a number literal. -/
inductive LexError where
  | malformedNumber (text : String) (span : Span)
  | integerOutOfRange (text : String) (span : Span)
deriving DecidableEq, Repr, Inhabited

namespace LexError

def span : LexError → Span
  | malformedNumber _ span => span
  | integerOutOfRange _ span => span

def message : LexError → String
  | malformedNumber text _ => "malformed number literal '" ++ text ++ "'"
  | integerOutOfRange text _ => "integer literal '" ++ text ++ "' does not fit in a 64-bit int"

end LexError

end ScalarLang
