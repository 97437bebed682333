/-
Module: TokenScan.Proofs.CalendarDays
Purpose: The calendar a day at a time. The day after a date is the next in its month, or the first of
  the next month, or the first of the next year; the day number of a date is what one counts by going
  from day to day, forwards or backwards, between 1970-01-01 and the date. So the day numbers are in
  calendar order, and no two dates share one.
Main exports: Calendar.Date.next, Calendar.Date.Before, Calendar.Date.dayNumber_next,
  Calendar.Date.dayNumber_lt_iff, Calendar.Date.IsDay, Calendar.Date.isDay_iff
-/
import Mathlib.Logic.Function.Iterate
import Mathlib.Order.Monotone.Basic
import TokenScan.Proofs.DateNumbers

namespace TokenScan.Calendar

theorem monthLength_pos (year : Int) {month : Nat} (hpos : 0 < month) (hle : month ≤ 12) :
    0 < monthLength year month := by
  unfold monthLength
  split <;> grind

namespace Date

/-! ### Days of the months and of the years -/

theorem daysBeforeMonth_succ (year : Int) {month : Nat} (hpos : 0 < month) :
    daysBeforeMonth year (month + 1) = daysBeforeMonth year month + monthLength year month := by
  obtain ⟨months, rfl⟩ := Nat.exists_eq_add_one.2 hpos
  simp only [daysBeforeMonth, Nat.add_sub_cancel, List.range_succ, List.foldl_append,
    List.foldl_cons, List.foldl_nil]

theorem daysBeforeMonth_mono (year : Int) : Monotone (daysBeforeMonth year) := by
  refine monotone_nat_of_le_succ fun month => ?_
  rcases Nat.eq_zero_or_pos month with rfl | hpos
  · exact le_rfl
  · rw [daysBeforeMonth_succ year hpos]
    exact Nat.le_add_right _ _

/-- A year is as long as its twelve months together. -/
theorem daysBeforeYear_succ (year : Int) :
    daysBeforeYear (year + 1) = daysBeforeYear year + daysBeforeMonth year 13 := by
  have hmonths : daysBeforeMonth year 13 = if isLeapYear year then 366 else 365 := by
    cases hleap : isLeapYear year <;>
      simp [daysBeforeMonth, List.range_succ, monthLength, hleap]
  have hleap : isLeapYear year = true ↔ year % 4 = 0 ∧ (year % 100 ≠ 0 ∨ year % 400 = 0) := by
    simp [isLeapYear]
  rw [hmonths, daysBeforeYear, daysBeforeYear]
  split_ifs with h
  · rw [hleap] at h
    omega
  · rw [hleap] at h
    omega

theorem daysBeforeYear_mono {year year' : Int} (hle : year ≤ year') :
    daysBeforeYear year ≤ daysBeforeYear year' := by
  simp only [daysBeforeYear]
  omega

/-! ### The day after a date -/

theorem month_pos (d : Date) : 0 < d.month := by
  by_contra hzero
  have hlength : monthLength d.year d.month = 0 := by
    rw [Nat.eq_zero_of_not_pos hzero]
    rfl
  exact absurd (d.day_pos.trans_le d.day_le) (by rw [hlength]; decide)

/-- The day after a date. -/
def next (d : Date) : Date :=
  if hday : d.day < monthLength d.year d.month then
    ⟨d.year, d.month, d.day + 1, Nat.succ_pos _, hday⟩
  else if hmonth : d.month < 12 then
    ⟨d.year, d.month + 1, 1, Nat.one_pos, monthLength_pos d.year (Nat.succ_pos _) hmonth⟩
  else ⟨d.year + 1, 1, 1, Nat.one_pos, monthLength_pos _ (by decide) (by decide)⟩

/-- The day after a date has the next day number. -/
theorem dayNumber_next (d : Date) : d.next.dayNumber = d.dayNumber + 1 := by
  have hday := d.day_pos
  have hle := d.day_le
  unfold next
  split_ifs with hinside hmonth
  · simp only [dayNumber, monthStart]
    omega
  · have hmonths := daysBeforeMonth_succ d.year d.month_pos
    simp only [dayNumber, monthStart]
    omega
  · -- The last day of December: the months of the year are over.
    have hdecember : d.month = 12 := le_antisymm d.month_le (not_lt.1 hmonth)
    have hmonths : daysBeforeMonth d.year 13 = daysBeforeMonth d.year 12 + monthLength d.year 12 :=
      daysBeforeMonth_succ d.year (by decide)
    have hyears := daysBeforeYear_succ d.year
    have hjanuary : daysBeforeMonth (d.year + 1) 1 = 0 := rfl
    rw [hdecember] at hinside hle
    simp only [dayNumber, monthStart, hdecember]
    omega

/-! ### Calendar order -/

/-- Calendar order: by year, then by month, then by day. -/
def Before (d e : Date) : Prop :=
  d.year < e.year ∨
    d.year = e.year ∧ (d.month < e.month ∨ d.month = e.month ∧ d.day < e.day)

theorem eq_or_before_or_before (d e : Date) : d = e ∨ d.Before e ∨ e.Before d := by
  obtain ⟨year, month, day, _, _⟩ := d
  obtain ⟨year', month', day', _, _⟩ := e
  simp only [Date.mk.injEq, Before]
  omega

/-- Every day of a month is before the first of the next one. -/
theorem daysBeforeMonth_add_day_lt (d : Date) :
    daysBeforeMonth d.year d.month + (d.day - 1) < daysBeforeMonth d.year (d.month + 1) := by
  have hday := d.day_pos
  have hle := d.day_le
  rw [daysBeforeMonth_succ d.year d.month_pos]
  omega

theorem dayNumber_lt_of_before {d e : Date} (h : d.Before e) : d.dayNumber < e.dayNumber := by
  have hend := d.daysBeforeMonth_add_day_lt
  rcases h with hyear | ⟨hyear, hmonth | ⟨hmonth, hday⟩⟩
  · have hmonths : daysBeforeMonth d.year (d.month + 1) ≤ daysBeforeMonth d.year 13 :=
      daysBeforeMonth_mono d.year (Nat.succ_le_succ d.month_le)
    have hyears := daysBeforeYear_mono (Int.add_one_le_of_lt hyear)
    rw [daysBeforeYear_succ] at hyears
    simp only [dayNumber, monthStart]
    omega
  · have hmonths : daysBeforeMonth d.year (d.month + 1) ≤ daysBeforeMonth d.year e.month :=
      daysBeforeMonth_mono d.year hmonth
    simp only [dayNumber, monthStart, ← hyear]
    omega
  · have hpos := d.day_pos
    simp only [dayNumber, monthStart, ← hyear, ← hmonth]
    omega

/-- Day numbers are in calendar order. -/
theorem dayNumber_lt_iff {d e : Date} : d.dayNumber < e.dayNumber ↔ d.Before e := by
  refine ⟨fun hlt => ?_, dayNumber_lt_of_before⟩
  rcases eq_or_before_or_before d e with rfl | h | h
  · exact absurd hlt (lt_irrefl _)
  · exact h
  · exact absurd (dayNumber_lt_of_before h) hlt.not_gt

theorem dayNumber_injective {d e : Date} (h : d.dayNumber = e.dayNumber) : d = e := by
  rcases eq_or_before_or_before d e with heq | hbefore | hbefore
  · exact heq
  · exact absurd h (dayNumber_lt_of_before hbefore).ne
  · exact absurd h (dayNumber_lt_of_before hbefore).ne'

/-! ### Counting days -/

/-- 1970-01-01. -/
def epoch : Date :=
  ⟨1970, 1, 1, by decide, by decide⟩

/-- The date is so many days after 1970-01-01, counted from day to day; before 1970-01-01 the count is
    negative. -/
def IsDay (d : Date) (n : Int) : Prop :=
  next^[n.toNat] epoch = next^[(-n).toNat] d

theorem dayNumber_iterate_next (d : Date) (n : Nat) :
    (next^[n] d).dayNumber = d.dayNumber + n := by
  induction n with
  | zero => simp
  | succ n ih =>
      rw [Function.iterate_succ_apply', dayNumber_next, ih]
      push_cast
      ring

/-- The day number of a date is its count of days. -/
theorem isDay_iff {d : Date} {n : Int} : d.IsDay n ↔ d.dayNumber = n := by
  have hepoch : epoch.dayNumber = 0 := by decide
  have hforth := dayNumber_iterate_next epoch n.toNat
  have hback := dayNumber_iterate_next d (-n).toNat
  constructor
  · intro h
    rw [IsDay] at h
    rw [h] at hforth
    omega
  · intro h
    exact dayNumber_injective (by omega)

end Date

end TokenScan.Calendar
