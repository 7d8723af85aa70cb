import ScalarLang.Token.Lexer
import ScalarLang.Typing

/-!
# Reading tokens with one token of lookahead

A `Cursor` holds the token being looked at and the items behind it.  What reads from it is a `Parse`:
it either gives a result or fails, and in both cases leaves the cursor where it stopped, so that
reading can be taken up again behind an error.

* `Cursor.ofText` — a cursor before the first item of a text.
* `Parse.advance` — moves to the next item.  An error among the items is passed by and reported, and
  the token being looked at stays.
* `Parse.expect`, `Parse.expectChar` — moves past a token that has to be there.
* `InputError` — what can be wrong with a source text.
-/

namespace ScalarLang

/-- What is wrong with the form of a source text. -/
inductive GrammarError where
  | expectedToken (expected : String) (found : Token.Kind) (span : Span)
  | unexpectedToken (found : Token.Kind) (span : Span)
  | unsupportedOperator (symbol : String) (span : Span)
deriving DecidableEq, Repr, Inhabited

namespace GrammarError

def span : GrammarError → Span
  | expectedToken _ _ span => span
  | unexpectedToken _ span => span
  | unsupportedOperator _ span => span

def message : GrammarError → String
  | expectedToken expected found _ => "expected " ++ expected ++ ", found " ++ found.describe
  | unexpectedToken found _ => "unexpected " ++ found.describe ++ " when expecting an expression"
  | unsupportedOperator symbol _ => "unsupported binary operator '" ++ symbol ++ "'"

end GrammarError

/-- What is wrong with a source text: its literals, its form or its types. -/
inductive InputError where
  | lexical (error : LexError)
  | grammar (error : GrammarError)
  | typing (error : TypeError)
deriving DecidableEq, Repr, Inhabited

namespace InputError

def span : InputError → Span
  | lexical e => e.span
  | grammar e => e.span
  | typing e => e.span

def message : InputError → String
  | lexical e => e.message
  | grammar e => e.message
  | typing e => e.message

end InputError

/-- The items of a text in front of its end, at most `n` of them, and the token at the end. -/
def Lexer.contentsFor : Nat → Lexer → List Item × Token
  | 0, lx => ([], ⟨.eof, lx.span⟩)
  | n + 1, lx =>
    match lx.next with
    | (.ok token, lx) =>
      if token.kind = .eof then ([], token)
      else
        let (items, final) := contentsFor n lx
        (.ok token :: items, final)
    | (.error e, lx) =>
      let (items, final) := contentsFor n lx
      (.error e :: items, final)

/-- The items of a text in front of its end, and the token at the end. -/
def Lexer.contents (lx : Lexer) : List Item × Token := lx.contentsFor (lx.rest.length + 1)

/-- The token being looked at, the items behind it, and the end of the input behind those. -/
structure Cursor where
  current : Token
  ahead : List Item
  final : Token
deriving Inhabited

namespace Cursor

/-- A cursor before the first item of a text.  It looks at nothing yet. -/
def ofText (text : String) : Cursor :=
  let (ahead, final) := (Lexer.ofText text).contents
  ⟨⟨.eof, .nowhere⟩, ahead, final⟩

/-- Is the token being looked at of this kind? -/
def at? (c : Cursor) (kind : Token.Kind) : Bool := c.current.kind.same kind

/-- Is the token being looked at this character? -/
def atChar? (c : Cursor) (ch : Char) : Bool := c.current.kind == .char ch

/-- The failure of something that was expected at the token being looked at. -/
def expected (c : Cursor) (what : String) : InputError :=
  .grammar (.expectedToken what c.current.kind c.current.span)

/-- How tightly the token being looked at binds as a binary operator; minus one if it is none. -/
def precedence (c : Cursor) (table : PrecedenceTable) : Int :=
  match c.current.kind with
  | .operator symbol => (table.precedence? symbol).getD (-1)
  | _ => -1

end Cursor

/-- Reads from a cursor; the cursor stays where reading stopped, also after a failure. -/
abbrev Parse := EStateM InputError Cursor

namespace Parse

/-- Moves to the next item.  An error among the items is passed by, and the token being looked at
stays the same. -/
def advance : Parse Unit := fun c =>
  match c.ahead with
  | [] => .ok () { c with current := c.final }
  | .ok token :: ahead => .ok () { c with current := token, ahead }
  | .error e :: ahead => .error (.lexical e) { c with ahead }

/-- Fails with what was expected here. -/
def expected {α : Type} (what : String) : Parse α := fun c => .error (c.expected what) c

/-- Moves past a token of the given kind and gives its place. -/
def expect (kind : Token.Kind) (what : String) : Parse Span := do
  let c ← get
  if c.at? kind then
    advance
    return c.current.span
  else expected what

/-- Moves past the given character and gives its place. -/
def expectChar (ch : Char) : Parse Span :=
  expect (.char ch) ("'" ++ ch.toString ++ "'")

/-- Takes over the result of a typing rule. -/
def check {α : Type} (result : Except TypeError α) : Parse α :=
  match result with
  | .ok a => pure a
  | .error e => throw (.typing e)

end Parse

end ScalarLang
