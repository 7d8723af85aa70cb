import ScalarLang.Toml.Layout

/-!
# Strings in TOML

A string stands in double quotes, with escape sequences, or in single quotes, without.  Three quotes
open a string of several lines.

* `Toml.quoted` — a string in any of its four forms.
-/

namespace ScalarLang

namespace Toml

/-- The character of an escape sequence of one letter. -/
def escape : Char → Except Fault Char
  | 'b' => .ok '\x08'
  | 't' => .ok '\t'
  | 'n' => .ok '\n'
  | 'f' => .ok '\x0c'
  | 'r' => .ok '\r'
  | '"' => .ok '"'
  | '\\' => .ok '\\'
  | c => .error (.unknownEscape c)

/-- The character with a code in hexadecimal digits. -/
def characterOf (cs : List Char) : Except Fault Char :=
  let code := ofDigits 16 cs
  if cs.all isHexDigit && decide code.isValidChar then .ok (Char.ofNat code)
  else .error .notACharacter

/-- The rest of a string behind its opening quote. -/
def basicText : Reader (List Char)
  | '"' :: rest => .ok ([], rest)
  | '\\' :: 'u' :: a :: b :: c :: d :: rest => do
    prepend (← characterOf [a, b, c, d]) (basicText rest)
  | '\\' :: 'U' :: a :: b :: c :: d :: e :: f :: g :: h :: rest => do
    prepend (← characterOf [a, b, c, d, e, f, g, h]) (basicText rest)
  | '\\' :: c :: rest => do prepend (← escape c) (basicText rest)
  | c :: rest => if isPlain c then prepend c (basicText rest) else unexpected [c] "quote"
  | [] => unexpected [] "quote"

/-- Does a backslash in front of the text join this line to the next? -/
def joinsLines (cs : List Char) : Bool := (newline? (skipSpaces cs)).isSome

/-- The rest of a string of several lines behind its opening quotes.  Of the quotes at its end the last
three close it.  `joining` says that spaces and line ends are being skipped. -/
def basicLines (joining : Bool) : Reader (List Char)
  | [] => unexpected [] "quotes"
  | '"' :: '"' :: '"' :: '"' :: '"' :: rest => .ok (['"', '"'], rest)
  | '"' :: '"' :: '"' :: '"' :: rest => .ok (['"'], rest)
  | '"' :: '"' :: '"' :: rest => .ok ([], rest)
  | '\r' :: '\n' :: rest =>
    if joining then basicLines true rest else prepend '\n' (basicLines false rest)
  | '\n' :: rest => if joining then basicLines true rest else prepend '\n' (basicLines false rest)
  | '\\' :: rest =>
    if joinsLines rest then basicLines true rest
    else
      match rest with
      | 'u' :: a :: b :: c :: d :: rest => do
        prepend (← characterOf [a, b, c, d]) (basicLines false rest)
      | 'U' :: a :: b :: c :: d :: e :: f :: g :: h :: rest => do
        prepend (← characterOf [a, b, c, d, e, f, g, h]) (basicLines false rest)
      | c :: rest => do prepend (← escape c) (basicLines false rest)
      | [] => unexpected [] "escape sequence"
  | c :: rest =>
    if joining && isSpace c then basicLines true rest
    else if isPlain c then prepend c (basicLines false rest)
    else unexpected [c] "quotes"

/-- The rest of a string without escapes behind its opening quote. -/
def literalText : Reader (List Char)
  | '\'' :: rest => .ok ([], rest)
  | c :: rest => if isPlain c then prepend c (literalText rest) else unexpected [c] "quote"
  | [] => unexpected [] "quote"

/-- The rest of a string of several lines without escapes behind its opening quotes. -/
def literalLines : Reader (List Char)
  | '\'' :: '\'' :: '\'' :: '\'' :: '\'' :: rest => .ok (['\'', '\''], rest)
  | '\'' :: '\'' :: '\'' :: '\'' :: rest => .ok (['\''], rest)
  | '\'' :: '\'' :: '\'' :: rest => .ok ([], rest)
  | '\r' :: '\n' :: rest => prepend '\n' (literalLines rest)
  | '\n' :: rest => prepend '\n' (literalLines rest)
  | c :: rest => if isPlain c then prepend c (literalLines rest) else unexpected [c] "quotes"
  | [] => unexpected [] "quotes"

/-- A string in quotes.  A line end right behind three opening quotes does not belong to it. -/
def quoted (cs : List Char) : Except Fault (String × List Char) := do
  let (text, rest) ←
    match cs with
    | '"' :: '"' :: '"' :: rest => basicLines false ((newline? rest).getD rest)
    | '"' :: rest => basicText rest
    | '\'' :: '\'' :: '\'' :: rest => literalLines ((newline? rest).getD rest)
    | '\'' :: rest => literalText rest
    | _ => unexpected cs "string"
  return (String.ofList text, rest)

end Toml

end ScalarLang
