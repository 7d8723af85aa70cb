import ScalarLang.Source

/-!
# Diagnostics

A diagnostic is what a user is told about a failure: how severe it is, which part of the work it
belongs to, a message, and a place in the source if there is one.

* `Diagnostic.describe` — one line without the place.
* `Diagnostic.Style` — colors, snippets, and the character that underlines.
* `Diagnostic.render` — a header, the place, and the source line with the place underlined.
-/

namespace ScalarLang

inductive Severity where
  | error
  | warning
  | note
deriving DecidableEq, Repr, Inhabited

def Severity.describe : Severity → String
  | error => "error"
  | warning => "warning"
  | note => "note"

/-- The part of the work in which something went wrong. -/
inductive Category where
  | lexical
  | grammar
  | type
  | codegen
  | runtime
deriving DecidableEq, Repr, Inhabited

def Category.describe : Category → String
  | lexical => "lexical"
  | grammar => "syntax"
  | type => "type"
  | codegen => "codegen"
  | runtime => "runtime"

structure Diagnostic where
  severity : Severity := .error
  category : Category
  message : String
  span? : Option Span
deriving DecidableEq, Repr, Inhabited

namespace Diagnostic

def isError (d : Diagnostic) : Bool := d.severity == .error

/-- Severity and category, as a header shows them. -/
def label (d : Diagnostic) : String := d.severity.describe ++ "[" ++ d.category.describe ++ "]"

def describe (d : Diagnostic) : String := d.label ++ ": " ++ d.message

/-! ### Rendering -/

/-- How diagnostics are rendered. -/
structure Style where
  colors : Bool := true
  showSource : Bool := true
  indicator : Char := '^'
deriving DecidableEq, Repr, Inhabited

/-- Diagnostics without colors. -/
def Style.plain : Style := { colors := false }

/-- Text in the color of a severity: errors are bold red, warnings bold yellow, notes cyan. -/
def Style.paint (style : Style) (severity : Severity) (text : String) : String :=
  if style.colors then
    match severity with
    | .error => "\x1b[1m\x1b[31m" ++ text ++ "\x1b[39m\x1b[0m"
    | .warning => "\x1b[1m\x1b[33m" ++ text ++ "\x1b[39m\x1b[0m"
    | .note => "\x1b[36m" ++ text ++ "\x1b[39m"
  else text

def spaces (n : Nat) : String := String.ofList (List.replicate n ' ')

/-- The number of characters to underline: those of a span on one line, and otherwise one. -/
def underlineWidth (span : Span) : Nat :=
  if span.start.line = span.stop.line then max (span.stop.column - span.start.column) 1 else 1

/-- A source line behind its number, which is padded to four places. -/
def sourceLine (number : Nat) (line : String) : String :=
  spaces (4 - number.repr.length) ++ number.repr ++ " | " ++ line ++ "\n"

/-- The line below it, which underlines the span. -/
def underline (style : Style) (severity : Severity) (span : Span) : String :=
  "     | " ++ spaces (span.start.column - 1)
    ++ style.paint severity (String.ofList (List.replicate (underlineWidth span) style.indicator))
    ++ "\n"

/-- The source line of a span with the span underlined, if the source has that line. -/
def snippet (style : Style) (severity : Severity) (span : Span) (source? : Option Source) : String :=
  if style.showSource then
    match source?.bind fun source => source.line? span.start.line with
    | some line => sourceLine span.start.line line ++ underline style severity span
    | none => ""
  else ""

/-- A diagnostic with its place in a source.  Without a place there is only the header. -/
def render (style : Style) (source? : Option Source) (d : Diagnostic) : String :=
  let header := style.paint d.severity d.label ++ ": " ++ d.message ++ "\n"
  match d.span?.filter fun span => !span.isNowhere with
  | none => header
  | some span =>
    header ++ " --> " ++ (source?.map Source.name).getD "<input>" ++ ":" ++ span.start.describe
      ++ "\n" ++ snippet style d.severity span source?

end Diagnostic

end ScalarLang
