/-
Module: TokenScan.Proofs.DateNumbers
Purpose: The two kinds of date literals and their faults. Digits with an optional minus are the
  stored number itself, however many there are, and are out of range if they do not fit; a calendar
  date has a year of four digits, so its day number always fits.
Main exports: Numeral.Digits.lt_pow, Calendar.Date.dayNumber_bounds, Calendar.date?_fits,
  Key.DateNumber, Key.encodeDate_of_dateNumber, Key.encodeDate_outOfRange_iff,
  Key.encodeDate_malformed_iff
-/
import Mathlib.Data.List.Range
import Mathlib.Tactic.Linarith
import TokenScan.Proofs.IntegerLiterals

namespace TokenScan

theorem Number.Numeral.Digits.lt_pow {cs : List Char} {n : Nat} (h : Digits cs n) :
    n < 10 ^ cs.length := by
  -- The fold over the digits is generalised over the number it starts from.
  have hfold : ∀ (ds : List Char), (∀ c ∈ ds, c.isDigit = true) → ∀ start,
      Nat.ofDigitChars 10 ds start < (start + 1) * 10 ^ ds.length := by
    intro ds
    induction ds with
    | nil => simp
    | cons d ds ih =>
        intro hds start
        obtain ⟨hd, hds⟩ := List.forall_mem_cons.1 hds
        have hdigit : d.toNat - '0'.toNat ≤ 9 :=
          Nat.sub_le_of_le_add (Char.isDigit_iff_toNat.1 hd).2
        rw [Nat.ofDigitChars_cons, List.length_cons, Nat.pow_succ']
        calc Nat.ofDigitChars 10 ds (10 * start + (d.toNat - '0'.toNat))
            < (10 * start + (d.toNat - '0'.toNat) + 1) * 10 ^ ds.length := ih hds _
          _ ≤ (start + 1) * 10 * 10 ^ ds.length := Nat.mul_le_mul_right _ (by omega)
          _ = (start + 1) * (10 * 10 ^ ds.length) := Nat.mul_assoc _ _ _
  simpa [h.number] using hfold cs h.digits 0

namespace Calendar

open Number

/-! ### Calendar dates fit -/

theorem field?_lt {n m : Nat} {cs rest : List Char} (h : field? n cs = some (m, rest)) :
    m < 10 ^ n := by
  obtain ⟨hlength, hread⟩ := Option.ite_none_right_eq_some.1 h
  obtain ⟨m', hnat, heq⟩ := Option.map_eq_some_iff.1 hread
  obtain rfl := (Prod.mk.inj heq).1
  simpa only [hlength] using (Numeral.nat?_eq_some_iff.1 hnat).lt_pow

theorem exists_of_map_field? {n : Nat} {cs rest : List Char} (f : Nat → Int) {z : Int}
    (h : (field? n cs).map (fun read => (f read.1, read.2)) = some (z, rest)) :
    ∃ m, m < 10 ^ n ∧ z = f m := by
  obtain ⟨⟨m, rest'⟩, hread, heq⟩ := Option.map_eq_some_iff.1 h
  exact ⟨m, field?_lt hread, (Prod.mk.inj heq).1.symm⟩

theorem year?_bounds {signed : Bool} {cs rest : List Char} {year : Int}
    (h : year? signed cs = some (year, rest)) : -9999 ≤ year ∧ year ≤ 9999 := by
  unfold year? at h
  split at h
  case h_1 =>
    obtain ⟨-, hread⟩ := Option.ite_none_right_eq_some.1 h
    obtain ⟨y, hlt, rfl⟩ := exists_of_map_field? (fun y => -(y : Int)) hread
    omega
  case h_2 =>
    obtain ⟨-, hread⟩ := Option.ite_none_right_eq_some.1 h
    obtain ⟨y, hlt, rfl⟩ := exists_of_map_field? (fun y => (y : Int)) hread
    omega
  case h_3 =>
    obtain ⟨y, hlt, rfl⟩ := exists_of_map_field? (fun y => (y : Int)) h
    omega

theorem monthLength_le (year : Int) (month : Nat) : monthLength year month ≤ 31 := by
  unfold monthLength
  split <;> try split
  all_goals decide

namespace Date

theorem month_le (d : Date) : d.month ≤ 12 := by
  by_contra hgt
  have hzero : monthLength d.year d.month = 0 := by
    unfold monthLength
    split <;> omega
  exact absurd (d.day_pos.trans_le d.day_le) (by rw [hzero]; decide)

theorem daysBeforeMonth_le (year : Int) (month : Nat) : daysBeforeMonth year month ≤ 31 * month := by
  have hsum : ∀ months, (List.range months).foldl
      (fun days i => days + monthLength year (i + 1)) 0 ≤ 31 * months := by
    intro months
    induction months with
    | zero => exact le_rfl
    | succ months ih =>
        have hmonth := monthLength_le year (months + 1)
        rw [List.range_succ, List.foldl_append, List.foldl_cons, List.foldl_nil]
        omega
  exact (hsum (month - 1)).trans (Nat.mul_le_mul_left 31 (Nat.sub_le _ _))

/-- The day numbers of dates with years of four digits have at most 32 bits. -/
theorem dayNumber_bounds {d : Date} (hlow : -9999 ≤ d.year) (hhigh : d.year ≤ 9999) :
    -2 ^ 31 ≤ d.dayNumber ∧ d.dayNumber < 2 ^ 31 := by
  have hmonth := d.month_le
  have hbefore := daysBeforeMonth_le d.year d.month
  have hday := d.day_le.trans (monthLength_le d.year d.month)
  simp only [dayNumber, monthStart, daysBeforeYear]
  omega

end Date

theorem date?_year {cs : List Char} {d : Date} (h : date? cs = some d) :
    -9999 ≤ d.year ∧ d.year ≤ 9999 := by
  unfold date? at h
  split at h
  case h_2 => simp at h
  case h_1 d' hlead =>
    obtain rfl := Option.some.inj h
    simp only [leadingDate?, Option.bind_eq_bind, Option.bind_eq_some_iff, Prod.exists,
      Option.pure_def, Option.some.injEq, Prod.mk.injEq, Date.ofParts?] at hlead
    obtain ⟨year, _, hyear, _, _, _, _, _, _, _, _, _, _, d'', hparts, rfl, -⟩ := hlead
    split_ifs at hparts
    obtain rfl := Option.some.inj hparts
    exact year?_bounds hyear

/-- A written date is stored in four bytes. -/
theorem date?_fits {cs : List Char} {d : Date} (h : date? cs = some d) :
    0 ≤ d.dayNumber + 2 ^ 31 ∧ d.dayNumber + 2 ^ 31 < 2 ^ 32 := by
  obtain ⟨hlow, hhigh⟩ := date?_year h
  have hbounds := Date.dayNumber_bounds hlow hhigh
  omega

end Calendar

namespace Key

open Number

variable {cs : List Char} {n : Int}

/-! ### Date literals -/

/-- Digits with an optional minus: the stored number of a date. -/
inductive DateNumber : List Char → Int → Prop where
  | plain {cs : List Char} {n : Nat} (digits : Numeral.Digits cs n) : DateNumber cs n
  | minus {cs : List Char} {n : Nat} (digits : Numeral.Digits cs n) : DateNumber ('-' :: cs) (-n)

/-- A literal without a minus in front is looked at as it stands. -/
theorem dateLiteral?_eq_of_ne (hminus : ∀ rest, cs ≠ '-' :: rest) :
    dateLiteral? cs = if cs ≠ [] ∧ cs.all Char.isDigit then (Numeral.int? cs).map .raw
      else (Calendar.date? cs).map fun d => .days d.dayNumber := by
  simp only [dateLiteral?]

theorem dateLiteral?_of_dateNumber (h : DateNumber cs n) : dateLiteral? cs = some (.raw n) := by
  cases h with
  | @plain _ n hdigits =>
      have hminus : ∀ rest, cs ≠ '-' :: rest := hdigits.ne_cons (by decide)
      have hall := List.all_eq_true.2 hdigits.digits
      rw [dateLiteral?_eq_of_ne hminus, if_pos ⟨hdigits.nonempty, hall⟩,
        Numeral.int?_of_nat? (Numeral.nat?_eq_some_iff.2 hdigits)]
      rfl
  | @minus digits n hdigits =>
      have hall := List.all_eq_true.2 hdigits.digits
      simp only [dateLiteral?]
      rw [if_pos ⟨hdigits.nonempty, hall⟩, Numeral.int?, Numeral.nat?_eq_some_iff.2 hdigits]
      rfl

theorem dateLiteral?_of_no_dateNumber (h : ∀ n, ¬ DateNumber cs n) :
    dateLiteral? cs = (Calendar.date? cs).map fun d => .days d.dayNumber := by
  by_cases hminus : ∃ rest, cs = '-' :: rest
  · obtain ⟨rest, rfl⟩ := hminus
    simp only [dateLiteral?]
    rw [if_neg]
    rintro ⟨hne, hall⟩
    exact h _ (.minus ⟨hne, List.all_eq_true.1 hall, rfl⟩)
  · rw [dateLiteral?_eq_of_ne (not_exists.1 hminus), if_neg]
    rintro ⟨hne, hall⟩
    exact h _ (.plain ⟨hne, List.all_eq_true.1 hall, rfl⟩)

/-- The text of an integer is the stored number of a date. -/
theorem dateNumber_chars (z : Int) : DateNumber (Numeral.chars z) z := by
  rcases Numeral.chars_cases z with ⟨n, rfl, hchars⟩ | ⟨n, rfl, hchars⟩
  · rw [hchars]
    exact .plain (.of_nat n)
  · rw [hchars]
    exact .minus (.of_nat n)

/-! ### The bytes of a date, and its faults -/

theorem encodeText_date (value : String) :
    encodeText .date value = encodeDate .date (Text.trim value.toList) := rfl

variable (type : ColumnType)

/-- The stored number of a date is stored if four bytes hold it. -/
theorem encodeDate_of_dateNumber (h : DateNumber cs n) :
    encodeDate type cs =
      if 0 ≤ n ∧ n < 2 ^ 32 then .ok (bigEndian 4 n.toNat) else .error (.outOfRange type) := by
  rw [encodeDate, dateLiteral?_of_dateNumber h]
  rfl

theorem encodeDate_of_date? (h : ∀ n, ¬ DateNumber cs n) {d : Calendar.Date}
    (hd : Calendar.date? cs = some d) :
    encodeDate type cs = .ok (bigEndian 4 (d.dayNumber + 2 ^ 31).toNat) := by
  have hfits := Calendar.date?_fits hd
  rw [encodeDate, dateLiteral?_of_no_dateNumber h, hd]
  exact if_pos hfits

theorem encodeDate_of_unread (h : ∀ n, ¬ DateNumber cs n) (hd : Calendar.date? cs = none) :
    encodeDate type cs = .error (.malformed type) := by
  rw [encodeDate, dateLiteral?_of_no_dateNumber h, hd]
  rfl

theorem encodeDate_outOfRange_iff :
    encodeDate type cs = .error (.outOfRange type) ↔
      ∃ n, DateNumber cs n ∧ ¬ (0 ≤ n ∧ n < 2 ^ 32) := by
  constructor
  · intro herror
    by_cases hnumber : ∃ n, DateNumber cs n
    · obtain ⟨n, hn⟩ := hnumber
      rw [encodeDate_of_dateNumber type hn] at herror
      split_ifs at herror with hrange
      exact ⟨n, hn, hrange⟩
    · rw [not_exists] at hnumber
      cases hd : Calendar.date? cs with
      | none => simp [encodeDate_of_unread type hnumber hd] at herror
      | some d => simp [encodeDate_of_date? type hnumber hd] at herror
  · rintro ⟨n, hn, hrange⟩
    rw [encodeDate_of_dateNumber type hn, if_neg hrange]

theorem encodeDate_malformed_iff :
    encodeDate type cs = .error (.malformed type) ↔
      (∀ n, ¬ DateNumber cs n) ∧ Calendar.date? cs = none := by
  constructor
  · intro herror
    have hnumber : ∀ n, ¬ DateNumber cs n := by
      intro n hn
      rw [encodeDate_of_dateNumber type hn] at herror
      split_ifs at herror
      simp at herror
    refine ⟨hnumber, ?_⟩
    cases hd : Calendar.date? cs with
    | none => rfl
    | some d => simp [encodeDate_of_date? type hnumber hd] at herror
  · exact fun h => encodeDate_of_unread type h.1 h.2

end Key

end TokenScan
