/-
Module: TokenScan.Proofs.DateColumns
Purpose: The columns of dates. A date is written as a year of four digits, a month and a day of two
  digits each, with hyphens between them. A date column stores its count of days from 1970-01-01,
  shifted so that no count is negative; so the bytes are in calendar order, the day after a date has
  the number after its own, and the number can be written instead of the date. Digits in that layout
  that are no date are refused.
Main exports: Numeral.padded, Numeral.digits_padded, Calendar.field?_padded, Calendar.dateChars,
  Calendar.leadingDate?_dateChars, Calendar.Date.text, Key.StoresDates, dates_stored
-/
import TokenScan.Proofs.CalendarDays

namespace TokenScan

open TokenScan.Number

/-! ### Fields of fixed width -/

namespace Number.Numeral

/-- The last digits of a number, so many of them, with zeros in front of a short one. -/
def padded : Nat → Nat → List Char
  | 0, _ => []
  | width + 1, n => padded width (n / 10) ++ [Nat.digitChar (n % 10)]

@[simp] theorem length_padded (width n : Nat) : (padded width n).length = width := by
  induction width generalizing n with
  | zero => rfl
  | succ width ih => simp [padded, ih]

theorem isDigit_of_mem_padded {width n : Nat} {c : Char} (hc : c ∈ padded width n) :
    c.isDigit = true := by
  induction width generalizing n with
  | zero => simp [padded] at hc
  | succ width ih =>
      have hdigit : ∀ d < 10, (Nat.digitChar d).isDigit = true := by decide
      rcases List.mem_append.1 hc with hc | hc
      · exact ih hc
      · rw [List.mem_singleton.1 hc]
        exact hdigit _ (Nat.mod_lt _ (by decide))

theorem not_isBlank_of_mem_padded {width n : Nat} {c : Char} (hc : c ∈ padded width n) :
    Text.isBlank c = false :=
  Text.isBlank_of_isDigit (isDigit_of_mem_padded hc)

theorem ofDigitChars_padded (width n : Nat) :
    Nat.ofDigitChars 10 (padded width n) 0 = n % 10 ^ width := by
  induction width generalizing n with
  | zero => simp [padded, Nat.mod_one]
  | succ width ih =>
      have hdigit : ∀ d < 10, (Nat.digitChar d).toNat - '0'.toNat = d := by decide
      rw [padded, Nat.ofDigitChars_append, ih, Nat.ofDigitChars_cons, Nat.ofDigitChars_nil,
        hdigit _ (Nat.mod_lt _ (by decide)), Nat.pow_succ', Nat.mod_mul, Nat.add_comm]

theorem digits_padded {width n : Nat} (hwidth : 0 < width) (hn : n < 10 ^ width) :
    Digits (padded width n) n where
  nonempty := List.ne_nil_of_length_pos (by rwa [length_padded])
  digits _ hc := isDigit_of_mem_padded hc
  number := by rw [ofDigitChars_padded, Nat.mod_eq_of_lt hn]

end Number.Numeral

namespace Calendar

theorem field?_padded {width n : Nat} (hwidth : 0 < width) (hn : n < 10 ^ width)
    (rest : List Char) : field? width (Numeral.padded width n ++ rest) = some (n, rest) := by
  have hlength := Numeral.length_padded width n
  simp only [field?, List.take_left' hlength, List.drop_left' hlength, hlength, if_true]
  rw [Numeral.nat?_eq_some_iff.2 (Numeral.digits_padded hwidth hn)]
  rfl

theorem year?_padded (signed : Bool) {year : Nat} (hyear : year < 10 ^ 4) (rest : List Char) :
    year? signed (Numeral.padded 4 year ++ rest) = some ((year : Int), rest) := by
  have hdigits := Numeral.digits_padded (by decide : 0 < 4) hyear
  obtain ⟨c, cs, hcs⟩ := List.exists_cons_of_ne_nil hdigits.nonempty
  have hc : c.isDigit = true := hdigits.digits c (hcs ▸ List.mem_cons_self)
  have hfield := field?_padded (by decide : 0 < 4) hyear rest
  rw [hcs, List.cons_append] at hfield ⊢
  unfold year?
  split
  case h_1 heq => simp [(List.cons.inj heq).1] at hc
  case h_2 heq => simp [(List.cons.inj heq).1] at hc
  case h_3 => rw [hfield]; rfl

/-! ### Written dates -/

/-- A year, a month and a day in four, two and two digits, with hyphens between them. -/
def dateChars (year month day : Nat) : List Char :=
  Numeral.padded 4 year ++ '-' :: (Numeral.padded 2 month ++ '-' :: Numeral.padded 2 day)

section DateChars

variable {year month day : Nat}

theorem digit_or_hyphen {c : Char} (hc : c ∈ dateChars year month day) :
    c.isDigit = true ∨ c = '-' := by
  simp only [dateChars, List.mem_append, List.mem_cons] at hc
  rcases hc with hc | rfl | hc | rfl | hc
  · exact .inl (Numeral.isDigit_of_mem_padded hc)
  · exact .inr rfl
  · exact .inl (Numeral.isDigit_of_mem_padded hc)
  · exact .inr rfl
  · exact .inl (Numeral.isDigit_of_mem_padded hc)

theorem not_isBlank_of_mem_dateChars : ∀ c ∈ dateChars year month day, Text.isBlank c = false := by
  intro c hc
  rcases digit_or_hyphen hc with hdigit | rfl
  · exact Text.isBlank_of_isDigit hdigit
  · decide

theorem exists_head_dateChars (year month day : Nat) :
    ∃ c rest, dateChars year month day = c :: rest ∧ c.isDigit = true ∧ '-' ∈ rest := by
  have hne : Numeral.padded 4 year ≠ [] :=
    List.ne_nil_of_length_pos (by rw [Numeral.length_padded]; decide)
  obtain ⟨c, cs, hcs⟩ := List.exists_cons_of_ne_nil hne
  have hc : c ∈ Numeral.padded 4 year := hcs ▸ List.mem_cons_self
  refine ⟨c, cs ++ '-' :: (Numeral.padded 2 month ++ '-' :: Numeral.padded 2 day), ?_,
    Numeral.isDigit_of_mem_padded hc, ?_⟩
  · rw [dateChars, hcs, List.cons_append]
  · exact List.mem_append_right _ List.mem_cons_self

theorem leadingDate?_dateChars (signed : Bool) (hyear : year < 10 ^ 4) (hmonth : month < 10 ^ 2)
    (hday : day < 10 ^ 2) (rest : List Char) :
    leadingDate? signed (dateChars year month day ++ rest) =
      (Date.ofParts? year month day).map (·, rest) := by
  have hfront : dateChars year month day ++ rest =
      Numeral.padded 4 year ++ '-' :: (Numeral.padded 2 month ++
        '-' :: (Numeral.padded 2 day ++ rest)) := by
    simp [dateChars]
  rw [hfront, leadingDate?, year?_padded signed hyear]
  simp only [Option.bind_eq_bind, Option.bind_some, after?, if_true,
    field?_padded (by decide : 0 < 2) hmonth, field?_padded (by decide : 0 < 2) hday]
  cases Date.ofParts? year month day <;> rfl

theorem date?_dateChars (hyear : year < 10 ^ 4) (hmonth : month < 10 ^ 2) (hday : day < 10 ^ 2) :
    date? (dateChars year month day) = Date.ofParts? year month day := by
  have hlead := leadingDate?_dateChars true hyear hmonth hday []
  rw [List.append_nil] at hlead
  rw [date?, hlead]
  cases Date.ofParts? year month day <;> rfl

end DateChars

namespace Date

theorem ofParts?_self (d : Date) : ofParts? d.year d.month d.day = some d :=
  dif_pos ⟨d.day_pos, d.day_le⟩

theorem ofParts?_eq_none {year : Int} {month day : Nat}
    (h : ∀ d : Date, ¬ (d.year = year ∧ d.month = month ∧ d.day = day)) :
    ofParts? year month day = none :=
  dif_neg fun hreal => h ⟨year, month, day, hreal.1, hreal.2⟩ ⟨rfl, rfl, rfl⟩

/-- The year has at most four digits and no sign. -/
def HasPlainYear (d : Date) : Prop :=
  0 ≤ d.year ∧ d.year ≤ 9999

instance (d : Date) : Decidable d.HasPlainYear :=
  inferInstanceAs (Decidable (_ ∧ _))

theorem dayNumber_bounds_of_plainYear {d : Date} (hd : d.HasPlainYear) :
    -2 ^ 31 ≤ d.dayNumber ∧ d.dayNumber < 2 ^ 31 :=
  dayNumber_bounds (le_trans (by decide) hd.1) hd.2

/-- The date as it is written, its year without a sign. -/
def chars (d : Date) : List Char :=
  dateChars d.year.toNat d.month d.day

/-- The text of a date. -/
def text (d : Date) : String :=
  String.ofList d.chars

theorem leadingDate?_chars (signed : Bool) {d : Date} (hd : d.HasPlainYear) (rest : List Char) :
    leadingDate? signed (d.chars ++ rest) = some (d, rest) := by
  have hmonth := d.month_le
  have hday := d.day_le.trans (monthLength_le d.year d.month)
  obtain ⟨hlow, hhigh⟩ := hd
  rw [chars, leadingDate?_dateChars signed (by omega) (by omega) (by omega),
    Int.toNat_of_nonneg hlow, ofParts?_self]
  rfl

theorem date?_chars {d : Date} (hd : d.HasPlainYear) : date? d.chars = some d := by
  have hlead := leadingDate?_chars true hd []
  rw [List.append_nil] at hlead
  rw [date?, hlead]

end Date

end Calendar

namespace Key

open Calendar

/-! ### The bytes of written dates -/

theorem not_dateNumber_dateChars (year month day : Nat) (n : Int) :
    ¬ DateNumber (dateChars year month day) n := by
  obtain ⟨c, rest, hchars, hc, hhyphen⟩ := exists_head_dateChars year month day
  rw [hchars]
  rintro (hdigits | hdigits)
  · exact hdigits.not_mem (by decide) (List.mem_cons_of_mem c hhyphen)
  · exact absurd hc (by decide)

section Column

variable {column : Column} (hdate : column.type = .date)

include hdate

theorem encodeLiteral_dateChars_eq_ok_iff {year month day : Nat} {bytes : Bytes} :
    encodeLiteral column (String.ofList (dateChars year month day)) = .ok bytes ↔
      encodeDate .date (dateChars year month day) = .ok bytes := by
  rw [encodeLiteral_eq_ok_iff, hdate, encodeText_date, String.toList_ofList,
    Text.trim_eq_self not_isBlank_of_mem_dateChars]

theorem encodeLiteral_date_text {d : Date} (hd : d.HasPlainYear) :
    encodeLiteral column d.text = .ok (bigEndian 4 (d.dayNumber + 2 ^ 31).toNat) := by
  rw [Date.text, Date.chars, encodeLiteral_dateChars_eq_ok_iff hdate]
  exact encodeDate_of_date? .date (not_dateNumber_dateChars _ _ _) (Date.date?_chars hd)

theorem encodeLiteral_date_number {n : Int} (hlow : 0 ≤ n) (hhigh : n < 2 ^ 32) :
    encodeLiteral column (Numeral.text n) = .ok (bigEndian 4 n.toNat) := by
  rw [encodeLiteral_eq_ok_iff, hdate, encodeText_date, Numeral.trim_text,
    encodeDate_of_dateNumber .date (dateNumber_chars n), if_pos ⟨hlow, hhigh⟩]

theorem encodeLiteral_no_date {year month day : Nat} (hyear : year < 10 ^ 4)
    (hmonth : month < 10 ^ 2) (hday : day < 10 ^ 2)
    (h : ∀ d : Date, ¬ (d.year = year ∧ d.month = month ∧ d.day = day)) :
    encodeLiteral column (String.ofList (dateChars year month day)) =
      .error ⟨column.name, String.ofList (dateChars year month day), .malformed column.type⟩ := by
  rw [encodeLiteral_eq_error_iff, hdate, encodeText_date, String.toList_ofList,
    Text.trim_eq_self not_isBlank_of_mem_dateChars]
  refine encodeDate_of_unread .date (not_dateNumber_dateChars _ _ _) ?_
  rw [date?_dateChars hyear hmonth hday, Date.ofParts?_eq_none h]

end Column

theorem ofBigEndian_dayNumber {d : Date} (hd : d.HasPlainYear) :
    (ofBigEndian (bigEndian 4 (d.dayNumber + 2 ^ 31).toNat) : Int) = 2 ^ 31 + d.dayNumber := by
  have hbounds := Date.dayNumber_bounds_of_plainYear hd
  rw [ofBigEndian_bigEndian (by omega), Int.toNat_of_nonneg (by omega), Int.add_comm]

theorem number_of_encodeLiteral {column : Column} (hdate : column.type = .date) {d : Date}
    (hd : d.HasPlainYear) {bytes : Bytes} (h : encodeLiteral column d.text = .ok bytes) :
    bytes.length = 4 ∧ (ofBigEndian bytes : Int) = 2 ^ 31 + d.dayNumber := by
  rw [encodeLiteral_date_text hdate hd] at h
  obtain rfl := Except.ok.inj h
  exact ⟨length_bigEndian _ _, ofBigEndian_dayNumber hd⟩

/-- What a column of dates makes of dates with years of four digits. -/
structure StoresDates (column : Column) : Prop where
  /-- A date is stored in four bytes, as its count of days from 1970-01-01 above 2^31; the decimal
      text of that number is stored alike. -/
  counts : ∀ d : Date, d.HasPlainYear → ∃ (days : Int) (bytes : Bytes), d.IsDay days ∧
    encodeLiteral column d.text = .ok bytes ∧ bytes.length = 4 ∧
    (ofBigEndian bytes : Int) = 2 ^ 31 + days ∧
    encodeLiteral column (Numeral.text (2 ^ 31 + days)) = .ok bytes
  /-- The day after a date has the number after its own. -/
  succeeds : ∀ (d : Date) (bytes bytes' : Bytes), d.HasPlainYear → d.next.HasPlainYear →
    encodeLiteral column d.text = .ok bytes → encodeLiteral column d.next.text = .ok bytes' →
      ofBigEndian bytes' = ofBigEndian bytes + 1
  /-- The order of the bytes is calendar order. -/
  ordered : ∀ (d e : Date) (bytes bytes' : Bytes), d.HasPlainYear → e.HasPlainYear →
    encodeLiteral column d.text = .ok bytes → encodeLiteral column e.text = .ok bytes' →
      (bytes < bytes' ↔ d.Before e)
  /-- Four, two and two digits that are no date of the calendar are malformed. -/
  refuses : ∀ year month day : Nat, year < 10 ^ 4 → month < 10 ^ 2 → day < 10 ^ 2 →
    (∀ d : Date, ¬ (d.year = year ∧ d.month = month ∧ d.day = day)) →
      encodeLiteral column (String.ofList (dateChars year month day)) =
        .error ⟨column.name, String.ofList (dateChars year month day), .malformed column.type⟩

end Key

/-- A date column stores dates as their counts of days, in calendar order, and refuses digits in the
    layout of a date that are none. -/
theorem dates_stored (column : Column) (hdate : column.type = .date) : Key.StoresDates column where
  counts d hd := by
    refine ⟨d.dayNumber, _, Calendar.Date.isDay_iff.2 rfl, Key.encodeLiteral_date_text hdate hd,
      length_bigEndian _ _, Key.ofBigEndian_dayNumber hd, ?_⟩
    have hbounds := Calendar.Date.dayNumber_bounds_of_plainYear hd
    rw [Key.encodeLiteral_date_number hdate (by omega) (by omega)]
    rw [Int.add_comm]
  succeeds d bytes bytes' hd hnext hbytes hbytes' := by
    have hnumber := Key.number_of_encodeLiteral hdate hd hbytes
    have hnumber' := Key.number_of_encodeLiteral hdate hnext hbytes'
    rw [Calendar.Date.dayNumber_next] at hnumber'
    omega
  ordered d e bytes bytes' hd he hbytes hbytes' := by
    have hnumber := Key.number_of_encodeLiteral hdate hd hbytes
    have hnumber' := Key.number_of_encodeLiteral hdate he hbytes'
    rw [← Calendar.Date.dayNumber_lt_iff, ← ofBigEndian_lt_iff (hnumber.1.trans hnumber'.1.symm)]
    omega
  refuses year month day hyear hmonth hday h :=
    Key.encodeLiteral_no_date hdate hyear hmonth hday h

/-- The last day of February in a century that is no leap year. -/
theorem dates_stored_of_common_century :
    let column : Column := ⟨"pk", .partitionKey, 0, .date⟩
    let date : Calendar.Date := ⟨1900, 2, 28, by decide, by decide⟩
    column.type = .date ∧
      (date.HasPlainYear ∧ Key.encodeLiteral column date.text = .ok [0x7F, 0xFF, 0x9C, 0x5B]) ∧
      (date.next.HasPlainYear ∧ date.next = ⟨1900, 3, 1, by decide, by decide⟩ ∧
        ∀ bytes, Key.encodeLiteral column date.next.text = .ok bytes →
          ofBigEndian bytes = 0x7FFF9C5C) ∧
      Key.encodeLiteral column "1900-02-29" =
        .error ⟨"pk", "1900-02-29", .malformed .date⟩ := by
  intro column date
  have hstored : Key.StoresDates column := dates_stored column rfl
  have hyear : date.HasPlainYear := by decide
  have hnext : date.next.HasPlainYear := by decide
  obtain ⟨days, bytes, hdays, hbytes, -, -, hnumber⟩ := hstored.counts date hyear
  have hcount : days = -25509 := by
    rw [← Calendar.Date.isDay_iff.1 hdays]
    decide
  have hspelt : Key.encodeLiteral column (Numeral.text (2 ^ 31 + -25509)) =
      .ok [0x7F, 0xFF, 0x9C, 0x5B] := by decide +kernel
  rw [hcount, hspelt] at hnumber
  obtain rfl := Except.ok.inj hnumber
  refine ⟨rfl, ⟨hyear, hbytes⟩, ⟨hnext, by decide, ?_⟩, ?_⟩
  · intro bytes' hbytes'
    exact hstored.succeeds date _ bytes' hyear hnext hbytes hbytes'
  · refine hstored.refuses 1900 2 29 (by decide) (by decide) (by decide) ?_
    rintro d ⟨hyear, hmonth, hday⟩
    have hle := d.day_le
    rw [hyear, hmonth, hday] at hle
    exact absurd hle (by decide)

end TokenScan
