import ScalarLang.Double.Nearest
import ScalarLang.Toml.Layout

/-!
# Numbers, dates and times in TOML

* `Toml.number` — integers and floats.
* `Toml.moment?` — dates and times.
-/

namespace ScalarLang

namespace Toml

/-! ### Numbers -/

/-- Splits off a sign; the flag says that it is a minus. -/
def sign : List Char → Bool × List Char
  | '-' :: rest => (true, rest)
  | '+' :: rest => (false, rest)
  | cs => (false, cs)

/-- A whole number, if it fits into 64 bits. -/
def integer (negative : Bool) (magnitude : Nat) : Except Fault Value :=
  let value : Int := if negative then -magnitude else magnitude
  if -0x8000000000000000 ≤ value ∧ value < 0x8000000000000000 then .ok (.integer value)
  else .error .outOfRange

/-- The float nearest to a decimal number; one too large for a float is refused. -/
def float (negative : Bool) (mantissa : Nat) (exponent : Int) : Except Fault Value :=
  let value := Double.ofDecimal negative mantissa exponent
  if value.isInfinite && !negative then .error .outOfRange else .ok (.float value)

/-- The digits before the point: a zero alone, or digits that do not start with one. -/
def wholePart : Reader (List Char)
  | '0' :: rest => .ok (['0'], rest)
  | cs => digits Char.isDigit cs

/-- The digits behind the point, if there is one. -/
def fraction : Reader (List Char)
  | '.' :: rest => digits Char.isDigit rest
  | cs => .ok ([], cs)

/-- The exponent, if there is one. -/
def exponent? : Reader (Option Int)
  | c :: rest =>
    if c == 'e' || c == 'E' then do
      let (negative, rest) := sign rest
      let (ds, rest) ← digits Char.isDigit rest
      let magnitude : Int := ofDigits 10 ds
      return (some (if negative then -magnitude else magnitude), rest)
    else .ok (none, c :: rest)
  | [] => .ok (none, [])

/-- A number in decimal notation behind its sign. -/
def decimal (negative : Bool) : Reader Value
  | 'i' :: 'n' :: 'f' :: rest => .ok (.float (Double.withSign negative Double.infinityBits), rest)
  | 'n' :: 'a' :: 'n' :: rest =>
    .ok (.float (Double.withSign negative 0x7FF8000000000000), rest)
  | cs => do
    let (whole, rest) ← wholePart cs
    let (places, rest) ← fraction rest
    let (exponent?, rest) ← exponent? rest
    if places.isEmpty && exponent?.isNone then
      return (← integer negative (ofDigits 10 whole), rest)
    else
      let value ← float negative (ofDigits 10 (whole ++ places)) (exponent?.getD 0 - places.length)
      return (value, rest)

/-- A number.  Those in base sixteen, eight and two have no sign. -/
def number : Reader Value
  | '0' :: 'x' :: rest => do
    let (ds, rest) ← digits isHexDigit rest
    return (← integer false (ofDigits 16 ds), rest)
  | '0' :: 'o' :: rest => do
    let (ds, rest) ← digits (fun c => '0' ≤ c && c ≤ '7') rest
    return (← integer false (ofDigits 8 ds), rest)
  | '0' :: 'b' :: rest => do
    let (ds, rest) ← digits (fun c => c == '0' || c == '1') rest
    return (← integer false (ofDigits 2 ds), rest)
  | cs =>
    let (negative, rest) := sign cs
    decimal negative rest

/-! ### Dates and times -/

/-- A number of exactly `n` digits. -/
def field? (n : Nat) (cs : List Char) : Option (Nat × List Char) :=
  let ds := cs.take n
  if ds.length == n && ds.all Char.isDigit then some (ofDigits 10 ds, cs.drop n) else none

def daysIn (year month : Nat) : Nat :=
  if month = 2 then
    if year % 4 = 0 ∧ (year % 100 ≠ 0 ∨ year % 400 = 0) then 29 else 28
  else if month = 4 ∨ month = 6 ∨ month = 9 ∨ month = 11 then 30
  else 31

/-- A date: what is behind it, or `none` if this is not one. -/
def date? (cs : List Char) : Option (List Char) :=
  match field? 4 cs with
  | some (year, '-' :: cs) =>
    match field? 2 cs with
    | some (month, '-' :: cs) =>
      match field? 2 cs with
      | some (day, cs) =>
        if 1 ≤ month && month ≤ 12 && 1 ≤ day && day ≤ daysIn year month then some cs else none
      | none => none
    | _ => none
  | _ => none

/-- A time of day: what is behind it, or `none` if this is not one. -/
def time? (cs : List Char) : Option (List Char) :=
  match field? 2 cs with
  | some (hour, ':' :: cs) =>
    match field? 2 cs with
    | some (minute, ':' :: cs) =>
      match field? 2 cs with
      | some (second, cs) =>
        if hour ≤ 23 && minute ≤ 59 && second ≤ 60 then
          match cs with
          | '.' :: c :: rest => if c.isDigit then some (rest.dropWhile Char.isDigit) else none
          | ['.'] => none
          | _ => some cs
        else none
      | none => none
    | _ => none
  | _ => none

/-- The offset behind a time with a date, if there is one. -/
def skipOffset? : List Char → Option (List Char)
  | [] => some []
  | c :: cs =>
    if c == 'Z' || c == 'z' then some cs
    else if c == '+' || c == '-' then
      match field? 2 cs with
      | some (hour, ':' :: cs) =>
        match field? 2 cs with
        | some (minute, cs) => if hour ≤ 23 && minute ≤ 59 then some cs else none
        | none => none
      | _ => none
    else some (c :: cs)

/-- A date, a time, or both: what is behind them.  A blank may stand between date and time. -/
def moment? (cs : List Char) : Option (List Char) :=
  match date? cs with
  | none => time? cs
  | some [] => some []
  | some (c :: rest) =>
    if c == 'T' || c == 't' || c == ' ' then
      match time? rest with
      | some rest => skipOffset? rest
      | none => some (c :: rest)
    else some (c :: rest)

end Toml

end ScalarLang
