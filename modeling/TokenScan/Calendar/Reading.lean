/-
Module: TokenScan.Calendar.Reading
Purpose: Written dates and instants. A date is `year-month-day`; an instant is a date, a date with a
  clock time, or the RFC 3339 form with an offset. Every field has a fixed number of digits, only
  the fraction of a second has one digit or more. An instant is read as whole milliseconds since
  1970-01-01T00:00:00 UTC, rounded down.
Main exports: date?, zonedMillis?, plainMillis?, instantMillis?
-/
import TokenScan.Calendar.Date
import TokenScan.Number.Numeral

namespace TokenScan.Calendar

open TokenScan.Number

/-- Exactly `n` digits in front, with what follows them. -/
def field? (n : Nat) (cs : List Char) : Option (Nat × List Char) :=
  let digits := cs.take n
  if digits.length = n then (Numeral.nat? digits).map (·, cs.drop n) else none

/-- The text after a given first character. -/
def after? (c : Char) : List Char → Option (List Char)
  | d :: cs => if d = c then some cs else none
  | [] => none

/-- A year of four digits, with a sign in front where signs are allowed. -/
def year? (signed : Bool) : List Char → Option (Int × List Char)
  | '-' :: cs => if signed then (field? 4 cs).map fun (y, rest) => (-(y : Int), rest) else none
  | '+' :: cs => if signed then (field? 4 cs).map fun (y, rest) => ((y : Int), rest) else none
  | cs => (field? 4 cs).map fun (y, rest) => ((y : Int), rest)

/-- A date in front, with what follows it. -/
def leadingDate? (signed : Bool) (cs : List Char) : Option (Date × List Char) := do
  let (year, cs) ← year? signed cs
  let (month, cs) ← field? 2 (← after? '-' cs)
  let (day, cs) ← field? 2 (← after? '-' cs)
  return (← Date.ofParts? year month day, cs)

/-- A date and nothing else. -/
def date? (cs : List Char) : Option Date :=
  match leadingDate? true cs with
  | some (d, []) => some d
  | _ => none

/-- A clock reading; the second may be the sixtieth, which only a leap second uses. -/
structure Clock where
  hour : Nat
  minute : Nat
  second : Nat
deriving DecidableEq, Repr

/-- A clock reading in front, with what follows it. -/
def leadingClock? (cs : List Char) : Option (Clock × List Char) := do
  let (hour, cs) ← field? 2 cs
  let (minute, cs) ← field? 2 (← after? ':' cs)
  let (second, cs) ← field? 2 (← after? ':' cs)
  if hour < 24 ∧ minute < 60 ∧ second ≤ 60 then return (⟨hour, minute, second⟩, cs) else none

/-- The milliseconds in a fraction of a second: its first three digits. -/
def fractionMillis (digits : List Char) : Nat :=
  Nat.ofDigitChars 10 ((digits ++ ['0', '0', '0']).take 3) 0

/-- The milliseconds of an optional fraction in front, with what follows it. A point needs a digit.
    -/
def leadingFraction? : List Char → Option (Nat × List Char)
  | '.' :: cs =>
    let digits := cs.takeWhile Char.isDigit
    if digits = [] then none else some (fractionMillis digits, cs.dropWhile Char.isDigit)
  | cs => some (0, cs)

/-- The minutes east of UTC of an offset that ends the text: `Z` in either case, or a sign, hours up
    to 23 and minutes. -/
def offsetMinutes? : List Char → Option Int
  | ['Z'] => some 0
  | ['z'] => some 0
  | sign :: cs => do
    let (hour, cs) ← field? 2 cs
    let (minute, cs) ← field? 2 (← after? ':' cs)
    if cs = [] ∧ hour ≤ 23 ∧ minute < 60 then
      if sign = '+' then some (60 * hour + minute)
      else if sign = '-' then some (-(60 * hour + minute))
      else none
    else none
  | [] => none

/-- Seconds from 1970-01-01 to a clock reading on a date. -/
def seconds (d : Date) (t : Clock) : Int :=
  86400 * d.dayNumber + 3600 * t.hour + 60 * t.minute + t.second

/-- A leap second can only be the last second of a month, in UTC: the second after it starts a
    month. -/
def endsMonth (d : Date) (utcSecond : Int) : Bool :=
  utcSecond = 86400 * d.monthStart || utcSecond = 86400 * d.nextMonthStart

/-- An instant in the RFC 3339 form: a date of four-digit year without a sign, any one ASCII
    character, a clock reading with an optional fraction, and an offset. A leap second counts as the
    last millisecond before it. -/
def zonedMillis? (cs : List Char) : Option Int := do
  let (d, cs) ← leadingDate? false cs
  let separator :: cs := cs | none
  let (t, cs) ← leadingClock? cs
  let (millis, cs) ← leadingFraction? cs
  let offset ← offsetMinutes? cs
  let utc := seconds d t - 60 * offset
  if ¬ separator.toNat < 128 then none
  else if t.second < 60 then some (1000 * utc + millis)
  else if endsMonth d utc then some (1000 * utc - 1)
  else none

/-- An instant in UTC without an offset: a date alone, or a date, a space and a clock reading with
    an optional fraction. There are no leap seconds in this form. -/
def plainMillis? (cs : List Char) : Option Int := do
  match ← leadingDate? true cs with
  | (d, []) => return 86400000 * d.dayNumber
  | (d, ' ' :: cs) =>
    let (t, cs) ← leadingClock? cs
    let (millis, cs) ← leadingFraction? cs
    if cs = [] ∧ t.second < 60 then return 1000 * seconds d t + millis else none
  | _ => none

/-- An instant in any of the written forms. -/
def instantMillis? (cs : List Char) : Option Int :=
  zonedMillis? cs <|> plainMillis? cs

end TokenScan.Calendar
