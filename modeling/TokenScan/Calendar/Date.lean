/-
Module: TokenScan.Calendar.Date
Purpose: Dates of the proleptic Gregorian calendar and their day numbers, counted from 1970-01-01.
Main exports: isLeapYear, monthLength, Date, Date.ofParts?, Date.dayNumber
-/

namespace TokenScan.Calendar

/-- Every fourth year is a leap year, save the centuries that 400 does not divide. -/
def isLeapYear (year : Int) : Bool :=
  year % 4 = 0 && (year % 100 ≠ 0 || year % 400 = 0)

/-- The number of days in a month; there are none outside months 1 to 12. -/
def monthLength (year : Int) : Nat → Nat
  | 2 => if isLeapYear year then 29 else 28
  | 4 | 6 | 9 | 11 => 30
  | 1 | 3 | 5 | 7 | 8 | 10 | 12 => 31
  | _ => 0

/-- A calendar date. -/
structure Date where
  year : Int
  month : Nat
  day : Nat
  day_pos : 0 < day
  day_le : day ≤ monthLength year month
deriving DecidableEq

namespace Date

/-- The date with these parts, if the calendar has it. -/
def ofParts? (year : Int) (month day : Nat) : Option Date :=
  if h : 0 < day ∧ day ≤ monthLength year month then some ⟨year, month, day, h.1, h.2⟩ else none

/-- Days from the first day of year 0 to the first day of `year`. -/
def daysBeforeYear (year : Int) : Int :=
  365 * year + (year + 3) / 4 - (year + 99) / 100 + (year + 399) / 400

/-- Days of `year` before the first day of `month`. -/
def daysBeforeMonth (year : Int) (month : Nat) : Nat :=
  (List.range (month - 1)).foldl (fun days i => days + monthLength year (i + 1)) 0

/-- Days from 1970-01-01 to the first day of the date's month. -/
def monthStart (d : Date) : Int :=
  daysBeforeYear d.year - daysBeforeYear 1970 + daysBeforeMonth d.year d.month

/-- Days from 1970-01-01 to the date. -/
def dayNumber (d : Date) : Int :=
  d.monthStart + (d.day - 1 : Nat)

/-- Days from 1970-01-01 to the first day of the month after the date's. -/
def nextMonthStart (d : Date) : Int :=
  d.monthStart + monthLength d.year d.month

end Date

end TokenScan.Calendar
