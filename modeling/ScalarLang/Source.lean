/-!
# Places in a source text

Every token, expression and diagnostic says where it stands.  A place is a line, a column and a byte
offset; lines and columns count from one, columns count characters, and line zero is kept for
"nowhere".

* `Position.after` — the place behind one more character.
* `Position.afterAll` — the place behind a whole stretch of text.
* `Span.through` — the stretch from the start of one span to the end of another.
* `Source.line?` — a line of a source text by its number.
-/

namespace ScalarLang

/-- A point between two characters of a source text. -/
structure Position where
  line : Nat
  column : Nat
  offset : Nat
deriving DecidableEq, Repr, Inhabited

namespace Position

/-- The point before the first character. -/
def origin : Position := ⟨1, 1, 0⟩

/-- The point that stands for no place at all. -/
def nowhere : Position := ⟨0, 0, 0⟩

/-- The point behind `c`, when `p` is the point before it: a newline opens the next line, and any
other character takes one column.  Offsets count bytes of UTF-8. -/
def after (p : Position) (c : Char) : Position :=
  if c = '\n' then ⟨p.line + 1, 1, p.offset + 1⟩
  else ⟨p.line, p.column + 1, p.offset + c.utf8Size⟩

/-- The point behind the text `cs`, when `p` is the point before it. -/
def afterAll (p : Position) (cs : List Char) : Position :=
  cs.foldl after p

@[simp] theorem afterAll_nil (p : Position) : p.afterAll [] = p := rfl

@[simp] theorem afterAll_cons (p : Position) (c : Char) (cs : List Char) :
    p.afterAll (c :: cs) = (p.after c).afterAll cs := rfl

theorem afterAll_append (p : Position) (cs ds : List Char) :
    p.afterAll (cs ++ ds) = (p.afterAll cs).afterAll ds := by
  simp [afterAll]

/-- Lines and columns, as a reader quotes them. -/
def describe (p : Position) : String :=
  p.line.repr ++ ":" ++ p.column.repr

end Position

/-- A stretch of source text: the point before its first character and the point behind its last. -/
structure Span where
  start : Position
  stop : Position
deriving DecidableEq, Repr, Inhabited

namespace Span

/-- The span of something that stands nowhere in the text. -/
def nowhere : Span := ⟨.nowhere, .nowhere⟩

/-- A span on line zero stands nowhere, whatever its other numbers are. -/
def isNowhere (s : Span) : Bool :=
  s.start.line == 0

/-- The stretch from the start of `a` to the end of `b`.  A span that stands nowhere is a unit on
either side. -/
def through (a b : Span) : Span :=
  if a.isNowhere then b
  else if b.isNowhere then a
  else ⟨a.start, b.stop⟩

/-- Both ends in brackets. -/
def describe (s : Span) : String :=
  "[" ++ s.start.describe ++ " - " ++ s.stop.describe ++ "]"

theorem nowhere_through (b : Span) : nowhere.through b = b := rfl

theorem through_nowhere (a : Span) (h : a.isNowhere = false) : a.through nowhere = a := by
  rw [through, h]
  rfl

end Span

/-- The lines of a text.  A line ends at a newline, together with one carriage return right before
it; the text behind the last newline is a line only if it is not empty. -/
def splitLines : List Char → List (List Char)
  | [] => []
  | '\n' :: rest => [] :: splitLines rest
  | '\r' :: '\n' :: rest => [] :: splitLines rest
  | c :: rest =>
    match splitLines rest with
    | [] => [[c]]
    | line :: lines => (c :: line) :: lines

/-- A named source text. -/
structure Source where
  name : String
  text : String
deriving DecidableEq, Repr, Inhabited

/-- The line of the given number, counted from one. -/
def Source.line? (s : Source) : Nat → Option String
  | 0 => none
  | n + 1 => (splitLines s.text.toList)[n]?.map String.ofList

end ScalarLang
