import ScalarLang.Literal
import ScalarLang.Text.Blank
import ScalarLang.Token

/-!
# From text to tokens

A `Lexer` stands at a point of a text and gives one item after the other: a token, or an error in the
place of a number literal.  Blanks and comments, which run from `#` through the end of the line,
separate items and give none.  Words, numbers and operators are the longest ones that start where
they start; any other character is a token of its own.

* `lexeme`, `itemOf` — the characters of the first item of a text, and the item they make up.
* `Lexer.advance` — steps over one character.
* `Lexer.skipFiller` — steps over blanks and comments.
* `Lexer.next` — the next item; the end of the input for ever once it is reached.
* `Lexer.next?` — the next item, with the end of the input given only once.
* `Lexer.drain` — the items up to the end of the input and the token that stands there.
* `tokenize` — all tokens of a text, or its first error.
-/

namespace ScalarLang

/-- An element of a text: a token, or an error in its place. -/
abbrev Item := Except LexError Token

/-! ### Classes of characters -/

/-- Can a name start with `c`? -/
def isWordStart (c : Char) : Bool := c.isAlpha

/-- Can a name go on with `c`? -/
def isWordChar (c : Char) : Bool := c.isAlphanum

/-- Can a number start with `c`? -/
def isNumberStart (c : Char) : Bool := c.isDigit || c == '.'

/-- The characters that operators are made of. -/
def operatorChars : List Char := ['>', '<', '=', '+', '-', '*', '/', '!']

def isOperatorChar (c : Char) : Bool := operatorChars.contains c

/-! ### Single items -/

/-- The characters of the item at the head of a text that starts with one: the longest word, number
or operator, or a single character.  It is empty only at the end of the text. -/
def lexeme : List Char → List Char
  | [] => []
  | c :: cs =>
    if isWordStart c then (c :: cs).takeWhile isWordChar
    else if isNumberStart c then (({} : Recognizer).readAll (c :: cs)).1.text.toList
    else if isOperatorChar c then (c :: cs).takeWhile isOperatorChar
    else [c]

/-- The item for a number literal, or for what was read of one. -/
def numberItem (r : Recognizer) (span : Span) : Item :=
  match r.value with
  | .ok (.int value) => .ok ⟨.intLiteral value, span⟩
  | .ok (.double value) => .ok ⟨.floatLiteral value, span⟩
  | .error .incomplete => .error (.malformedNumber r.text span)
  | .error .outOfRange => .error (.integerOutOfRange r.text span)

/-- The item that the characters of a `lexeme` make up. -/
def itemOf (slice : List Char) (span : Span) : Item :=
  match slice with
  | [] => .ok ⟨.eof, span⟩
  | c :: _ =>
    if isWordStart c then .ok ⟨.ofWord (String.ofList slice), span⟩
    else if isNumberStart c then numberItem (({} : Recognizer).readAll slice).1 span
    else if isOperatorChar c then .ok ⟨.operator (String.ofList slice), span⟩
    else .ok ⟨.char c, span⟩

/-! ### The lexer -/

/-- A point of a text, the text behind it, and the point where the last item started. -/
structure Lexer where
  rest : List Char
  position : Position
  start : Position
  finished : Bool
deriving DecidableEq, Repr, Inhabited

namespace Lexer

/-- The lexer before the first character of a text. -/
def ofChars (cs : List Char) : Lexer := ⟨cs, .origin, .origin, false⟩

/-- The lexer before the first character of a text. -/
def ofText (text : String) : Lexer := ofChars text.toList

/-- The stretch from the start of the current item up to here. -/
def span (lx : Lexer) : Span := ⟨lx.start, lx.position⟩

/-- Lets the next item start here. -/
def mark (lx : Lexer) : Lexer := { lx with start := lx.position }

/-- The character ahead. -/
def peek (lx : Lexer) : Option Char := lx.rest.head?

/-- Steps over one character. -/
def advance (lx : Lexer) : Option Char × Lexer :=
  match lx.rest with
  | [] => (none, lx)
  | c :: rest => (some c, { lx with rest, position := lx.position.after c })

/-- Steps over `n` characters, or up to the end of the text. -/
def advanceBy (lx : Lexer) (n : Nat) : Lexer :=
  { lx with rest := lx.rest.drop n, position := lx.position.afterAll (lx.rest.take n) }

/-- The number of characters in front of the first item; `inComment` says whether a comment is still
open.  A comment ends behind its newline. -/
def fillerLength (inComment : Bool) : List Char → Nat
  | [] => 0
  | c :: cs =>
    if inComment then 1 + fillerLength (c != '\n') cs
    else if isBlank c then 1 + fillerLength false cs
    else if c = '#' then 1 + fillerLength true cs
    else 0

/-- Steps over blanks and comments and lets the next item start there. -/
def skipFiller (lx : Lexer) : Lexer := (lx.advanceBy (fillerLength false lx.rest)).mark

/-- The next item.  At the end of the text it is the end of the input, again and again. -/
def next (lx : Lexer) : Item × Lexer :=
  let lx := lx.skipFiller
  let slice := lexeme lx.rest
  let lx := lx.advanceBy slice.length
  (itemOf slice lx.span, lx)

/-- Is this item the end of the input? -/
def isEnd : Item → Bool
  | .ok token => token.kind == .eof
  | .error _ => false

/-- The next item, until the end of the input has been given. -/
def next? (lx : Lexer) : Option Item × Lexer :=
  if lx.finished then (none, lx)
  else
    let (item, lx) := lx.next
    (some item, if isEnd item then { lx with finished := true } else lx)

/-- At most `n` of the next items, up to and with the end of the input. -/
def drainFor : Nat → Lexer → List Item × Lexer
  | 0, lx => ([], lx)
  | n + 1, lx =>
    match lx.next? with
    | (none, lx) => ([], lx)
    | (some item, lx) =>
      let (items, lx) := drainFor n lx
      (item :: items, lx)

/-- All items that are left, up to and with the end of the input.  Every other item takes at least
one character, so there are at most as many items as characters, and the end. -/
def drain (lx : Lexer) : List Item × Lexer := lx.drainFor (lx.rest.length + 1)

end Lexer

/-- The items of a text; the last one is the end of the input. -/
def items (text : String) : List Item := (Lexer.ofText text).drain.1

/-- The tokens of a text, or its first error. -/
def tokenize (text : String) : Except LexError (List Token) := (items text).mapM id

end ScalarLang
