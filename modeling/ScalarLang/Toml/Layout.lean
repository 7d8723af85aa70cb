import ScalarLang.Text.Digits
import ScalarLang.Toml

/-!
# Layout and digits in TOML

Every reader takes a value off the front of a text and gives it with the rest.

* `Toml.Reader` — a reader.
* `Toml.skipLayout`, `Toml.lineEnd` — what may stand between values and behind them.
* `Toml.digits` — digits with underscores between them.
-/

namespace ScalarLang

namespace Toml

/-- A reader takes a value off the front of a text. -/
abbrev Reader (α : Type) := List Char → Except Fault (α × List Char)

/-- Puts a character in front of what a reader has taken. -/
def prepend (c : Char) : Except Fault (List Char × List Char) → Except Fault (List Char × List Char)
  | .ok (cs, rest) => .ok (c :: cs, rest)
  | .error e => .error e

/-! ### Layout -/

def isSpace (c : Char) : Bool := c == ' ' || c == '\t'

/-- May the character stand in a comment or a string? -/
def isPlain (c : Char) : Bool := c == '\t' || (0x20 ≤ c.toNat && c.toNat != 0x7F)

def skipSpaces (cs : List Char) : List Char := cs.dropWhile isSpace

/-- Takes a line end off the front of a text. -/
def newline? : List Char → Option (List Char)
  | '\n' :: rest => some rest
  | '\r' :: '\n' :: rest => some rest
  | _ => none

/-- Skips spaces, line ends and comments; a comment ends with its line. -/
def skipLayout (inComment : Bool) : List Char → Except Fault (List Char)
  | [] => if inComment then unexpected [] "end of line" else .ok []
  | '\n' :: rest => skipLayout false rest
  | '\r' :: '\n' :: rest => skipLayout false rest
  | c :: rest =>
    if inComment then
      if isPlain c then skipLayout true rest else unexpected [c] "end of line"
    else if isSpace c then skipLayout false rest
    else if c == '#' then skipLayout true rest
    else .ok (c :: rest)

/-- Skips the rest of a line, in which only a comment may stand. -/
def lineEnd (cs : List Char) : Except Fault (List Char) :=
  let cs := skipSpaces cs
  let cs :=
    match cs with
    | '#' :: rest => rest.dropWhile isPlain
    | _ => cs
  match cs with
  | [] => .ok []
  | _ :: _ =>
    match newline? cs with
    | some rest => .ok rest
    | none => unexpected cs "end of line"

/-! ### Digits -/

export ScalarLang (ofDigits)

/-- Further digits behind a digit; an underscore stands between two of them. -/
def moreDigits (isDigit : Char → Bool) : Reader (List Char)
  | '_' :: c :: rest =>
    if isDigit c then prepend c (moreDigits isDigit rest) else unexpected [c] "digit"
  | ['_'] => unexpected [] "digit"
  | c :: rest => if isDigit c then prepend c (moreDigits isDigit rest) else .ok ([], c :: rest)
  | [] => .ok ([], [])

/-- One or more digits. -/
def digits (isDigit : Char → Bool) : Reader (List Char)
  | c :: rest => if isDigit c then prepend c (moreDigits isDigit rest) else unexpected [c] "digit"
  | [] => unexpected [] "digit"

end Toml

end ScalarLang
