/-
Module: TokenScan.Proofs.InstantColumns
Purpose: The columns of instants. A calendar and a clock are read off with an offset from UTC; they
  are written with the offset, or in UTC without it, and then a fraction of zero or the whole clock
  reading may be left out. However an instant is written, its column stores the milliseconds from
  1970-01-01 to it, rounded down, and the number of milliseconds can be written instead.
Main exports: Calendar.FractionText, Calendar.OffsetText, Calendar.Reading.WrittenAs,
  Calendar.instantMillis?_of_writtenAs, Key.StoresInstants, instants_stored
-/
import Mathlib.Data.Rat.Floor
import Mathlib.Tactic.FieldSimp
import TokenScan.Proofs.DateColumns
import TokenScan.Proofs.WrittenIntegers

namespace TokenScan

open TokenScan.Number

namespace Calendar

/-! ### Fractions of a second -/

/-- The part of a second that a point and digits after it write; without them there is none. -/
inductive FractionText : List Char → ℚ → Prop where
  | none : FractionText [] 0
  | digits {cs : List Char} {n : Nat} (digits : Numeral.Digits cs n) :
      FractionText ('.' :: cs) (n / 10 ^ cs.length)

/-- A text that can follow a fraction: it goes on with no digit and starts no fraction itself. -/
def EndsFraction (cs : List Char) : Prop :=
  ∀ c rest, cs = c :: rest → c.isDigit = false ∧ c ≠ '.'

theorem endsFraction_nil : EndsFraction [] := nofun

/-- The first three digits of a fraction are its milliseconds, rounded down. -/
theorem fractionMillis_of_digits {cs : List Char} {n : Nat} (h : Numeral.Digits cs n) :
    fractionMillis cs = 1000 * n / 10 ^ cs.length := by
  have hall : Numeral.Digits (cs ++ ['0', '0', '0']) (n * 10 ^ 3) :=
    Numeral.nat?_eq_some_iff.1 (Numeral.nat?_append_zeros (Numeral.nat?_eq_some_iff.2 h) 3)
  generalize hpadded : cs ++ ['0', '0', '0'] = padded at hall
  have hlength : (padded.drop 3).length = cs.length := by simp [← hpadded]
  have hrest : Numeral.Digits (padded.drop 3) (Nat.ofDigitChars 10 (padded.drop 3) 0) :=
    ⟨List.ne_nil_of_length_pos (hlength ▸ List.length_pos_iff.2 h.nonempty),
      fun c hc => hall.digits c (List.mem_of_mem_drop hc), rfl⟩
  have hlt := hrest.lt_pow
  have hsplit := hall.number
  rw [← List.take_append_drop 3 padded, Nat.ofDigitChars_append,
    Nat.ofDigitChars_eq_ofDigitChars_zero] at hsplit
  rw [hlength] at hlt hsplit
  rw [fractionMillis, hpadded, show 1000 * n = n * 10 ^ 3 by omega, ← hsplit,
    Nat.mul_add_div (Nat.pow_pos (by decide)), Nat.div_eq_of_lt hlt, Nat.add_zero]

/-- A fraction is read as its milliseconds, rounded down. -/
theorem FractionText.exists_millis {cs : List Char} {q : ℚ} (h : FractionText cs q) :
    ∃ millis : Nat, millis < 1000 ∧ ⌊1000 * q⌋ = millis ∧ ∀ rest, EndsFraction rest →
      leadingFraction? (cs ++ rest) = some (millis, rest) := by
  cases h with
  | none =>
      refine ⟨0, by decide, by simp, ?_⟩
      intro rest hrest
      rw [List.nil_append]
      unfold leadingFraction?
      split
      case h_1 tail => exact absurd rfl (hrest '.' tail rfl).2
      case h_2 => rfl
  | @digits cs n hdigits =>
      refine ⟨fractionMillis cs, ?_, ?_, ?_⟩
      · rw [fractionMillis_of_digits hdigits]
        refine Nat.div_lt_of_lt_mul ?_
        rw [Nat.mul_comm]
        exact Nat.mul_lt_mul_of_pos_right hdigits.lt_pow (by decide)
      · have hquotient : 1000 * ((n : ℚ) / 10 ^ cs.length) =
            ((1000 * n : Nat) : ℚ) / ((10 ^ cs.length : Nat) : ℚ) := by
          push_cast
          ring
        rw [fractionMillis_of_digits hdigits, hquotient, Rat.floor_natCast_div_natCast]
        rfl
      · intro rest hrest
        have hstops : rest.takeWhile Char.isDigit = [] ∧ rest.dropWhile Char.isDigit = rest := by
          cases rest with
          | nil => exact ⟨rfl, rfl⟩
          | cons c rest =>
              have hc := (hrest c rest rfl).1
              exact ⟨List.takeWhile_cons_of_neg (by simp [hc]),
                List.dropWhile_cons_of_neg (by simp [hc])⟩
        rw [List.cons_append]
        simp only [leadingFraction?, List.takeWhile_append_of_pos hdigits.digits,
          List.dropWhile_append_of_pos hdigits.digits, hstops, List.append_nil]
        rw [if_neg hdigits.nonempty]

theorem FractionText.not_isBlank {cs : List Char} {q : ℚ} (h : FractionText cs q) :
    ∀ c ∈ cs, Text.isBlank c = false := by
  cases h with
  | none => simp
  | digits hdigits =>
      exact List.forall_mem_cons.2
        ⟨by decide, fun c hc => Text.isBlank_of_isDigit (hdigits.digits c hc)⟩

/-! ### Offsets from UTC -/

/-- The offset from UTC of a written zone, in minutes to the east: less than a day. -/
inductive OffsetText : List Char → Int → Prop where
  | utc : OffsetText ['Z'] 0
  | lowerUtc : OffsetText ['z'] 0
  | east {hour minute : Nat} (hour_lt : hour < 24) (minute_lt : minute < 60) :
      OffsetText ('+' :: (Numeral.padded 2 hour ++ ':' :: Numeral.padded 2 minute))
        (60 * hour + minute)
  | west {hour minute : Nat} (hour_lt : hour < 24) (minute_lt : minute < 60) :
      OffsetText ('-' :: (Numeral.padded 2 hour ++ ':' :: Numeral.padded 2 minute))
        (-(60 * hour + minute))

namespace OffsetText

variable {cs : List Char} {minutes : Int}

theorem offsetMinutes?_signed {sign : Char} (hZ : sign ≠ 'Z') (hz : sign ≠ 'z') {hour minute : Nat}
    (hhour : hour < 24) (hminute : minute < 60) :
    offsetMinutes? (sign :: (Numeral.padded 2 hour ++ ':' :: Numeral.padded 2 minute)) =
      if sign = '+' then some (60 * hour + minute : Int)
      else if sign = '-' then some (-(60 * hour + minute : Int)) else none := by
  have hfield := field?_padded (by decide : 0 < 2) (show minute < 10 ^ 2 by omega) []
  rw [List.append_nil] at hfield
  rw [offsetMinutes?]
  · simp only [field?_padded (by decide : 0 < 2) (show hour < 10 ^ 2 by omega), after?, hfield,
      Option.bind_eq_bind, Option.bind_some, if_true]
    rw [if_pos ⟨trivial, Nat.le_of_lt_succ hhour, hminute⟩]
  · simp [hZ]
  · simp [hz]

theorem offsetMinutes?_eq (h : OffsetText cs minutes) : offsetMinutes? cs = some minutes := by
  cases h with
  | utc => rfl
  | lowerUtc => rfl
  | east hhour hminute => exact offsetMinutes?_signed (by decide) (by decide) hhour hminute
  | west hhour hminute => exact offsetMinutes?_signed (by decide) (by decide) hhour hminute

theorem bounds (h : OffsetText cs minutes) : -1440 < minutes ∧ minutes < 1440 := by
  cases h <;> omega

theorem endsFraction (h : OffsetText cs minutes) : EndsFraction cs := by
  intro c rest heq
  cases h <;> obtain ⟨rfl, -⟩ := List.cons.inj heq <;> decide

theorem not_isBlank (h : OffsetText cs minutes) : ∀ c ∈ cs, Text.isBlank c = false := by
  intro c hc
  cases h with
  | utc => rw [List.mem_singleton.1 hc]; decide
  | lowerUtc => rw [List.mem_singleton.1 hc]; decide
  | east | west =>
      simp only [List.mem_cons, List.mem_append] at hc
      rcases hc with rfl | hc | rfl | hc
      · decide
      · exact Numeral.not_isBlank_of_mem_padded hc
      · decide
      · exact Numeral.not_isBlank_of_mem_padded hc

theorem nonempty (h : OffsetText cs minutes) : cs ≠ [] := by
  cases h <;> simp

end OffsetText

/-! ### Clock readings -/

namespace Clock

/-- A clock reading outside of leap seconds. -/
structure IsRegular (t : Clock) : Prop where
  hour_lt : t.hour < 24
  minute_lt : t.minute < 60
  second_lt : t.second < 60

/-- The clock reading as it is written. -/
def chars (t : Clock) : List Char :=
  Numeral.padded 2 t.hour ++ ':' :: (Numeral.padded 2 t.minute ++ ':' :: Numeral.padded 2 t.second)

theorem leadingClock?_chars {t : Clock} (ht : t.IsRegular) (rest : List Char) :
    leadingClock? (t.chars ++ rest) = some (t, rest) := by
  obtain ⟨hhour, hminute, hsecond⟩ := ht
  have hfront : t.chars ++ rest = Numeral.padded 2 t.hour ++ ':' :: (Numeral.padded 2 t.minute ++
      ':' :: (Numeral.padded 2 t.second ++ rest)) := by
    simp [chars]
  have hfield {n : Nat} (hn : n < 60) := field?_padded (by decide : 0 < 2) (show n < 10 ^ 2 by omega)
  rw [hfront, leadingClock?]
  simp only [hfield (show t.hour < 60 by omega), hfield hminute, hfield hsecond, after?,
    Option.bind_eq_bind, Option.bind_some, if_true]
  rw [if_pos ⟨hhour, hminute, hsecond.le⟩]
  rfl

theorem not_isBlank {t : Clock} : ∀ c ∈ t.chars, Text.isBlank c = false := by
  intro c hc
  simp only [chars, List.mem_append, List.mem_cons] at hc
  rcases hc with hc | rfl | hc | rfl | hc
  · exact Numeral.not_isBlank_of_mem_padded hc
  · decide
  · exact Numeral.not_isBlank_of_mem_padded hc
  · decide
  · exact Numeral.not_isBlank_of_mem_padded hc

end Clock

/-! ### Written instants -/

/-- What a calendar and a clock show at an instant, somewhere. -/
structure Reading where
  date : Date
  clock : Clock
  /-- The part of the second that has passed. -/
  fraction : ℚ
  /-- How many minutes the clock is ahead of UTC. -/
  offset : Int

namespace Reading

/-- Seconds from 1970-01-01T00:00:00 UTC to the instant, the date being so many days after
    1970-01-01. -/
def seconds (r : Reading) (days : Int) : ℚ :=
  86400 * days + (3600 * r.clock.hour + 60 * r.clock.minute + r.clock.second) - 60 * r.offset +
    r.fraction

/-- The written forms of a reading: with its offset, after one of the separators of date and time; or
    in UTC, as a date, a space and a clock reading; or a date alone, which is its first instant. -/
inductive WrittenAs : Reading → List Char → Prop where
  | zoned {d : Date} {t : Clock} {separator : Char} {fraction zone : List Char} {q : ℚ}
      {minutes : Int} (year : d.HasPlainYear) (regular : t.IsRegular)
      (separates : separator ∈ ['T', 't', ' ']) (part : FractionText fraction q)
      (offset : OffsetText zone minutes) :
      WrittenAs ⟨d, t, q, minutes⟩ (d.chars ++ separator :: (t.chars ++ (fraction ++ zone)))
  | plain {d : Date} {t : Clock} {fraction : List Char} {q : ℚ} (year : d.HasPlainYear)
      (regular : t.IsRegular) (part : FractionText fraction q) :
      WrittenAs ⟨d, t, q, 0⟩ (d.chars ++ ' ' :: (t.chars ++ fraction))
  | date {d : Date} (year : d.HasPlainYear) : WrittenAs ⟨d, ⟨0, 0, 0⟩, 0, 0⟩ d.chars

variable {r : Reading} {cs : List Char}

theorem WrittenAs.exists_front (h : r.WrittenAs cs) :
    r.date.HasPlainYear ∧ ∃ rest, cs = r.date.chars ++ rest := by
  cases h with
  | zoned hyear => exact ⟨hyear, _, rfl⟩
  | plain hyear => exact ⟨hyear, _, rfl⟩
  | date hyear => exact ⟨hyear, [], (List.append_nil _).symm⟩

theorem WrittenAs.isRegular (h : r.WrittenAs cs) : r.clock.IsRegular := by
  cases h with
  | zoned _ hregular => exact hregular
  | plain _ hregular => exact hregular
  | date => exact ⟨Nat.succ_pos 23, Nat.succ_pos 59, Nat.succ_pos 59⟩

theorem WrittenAs.exists_millis (h : r.WrittenAs cs) :
    ∃ millis : Nat, millis < 1000 ∧ ⌊1000 * r.fraction⌋ = millis := by
  have hpart : ∃ fraction, FractionText fraction r.fraction := by
    cases h with
    | zoned _ _ _ hpart => exact ⟨_, hpart⟩
    | plain _ _ hpart => exact ⟨_, hpart⟩
    | date => exact ⟨[], .none⟩
  obtain ⟨fraction, hpart⟩ := hpart
  obtain ⟨millis, hlt, hmillis, -⟩ := hpart.exists_millis
  exact ⟨millis, hlt, hmillis⟩

theorem WrittenAs.offset_bounds (h : r.WrittenAs cs) : -1440 < r.offset ∧ r.offset < 1440 := by
  cases h with
  | zoned _ _ _ _ hoffset => exact hoffset.bounds
  | plain => simp
  | date => simp

theorem WrittenAs.trim_eq (h : r.WrittenAs cs) : Text.trim cs = cs := by
  have hdate : ∀ d : Date, d.chars ≠ [] ∧ ∀ c ∈ d.chars, Text.isBlank c = false := by
    intro d
    obtain ⟨c, rest, hchars, -⟩ := exists_head_dateChars d.year.toNat d.month d.day
    exact ⟨by simp [Date.chars, hchars], not_isBlank_of_mem_dateChars⟩
  cases h with
  | @zoned d t separator fraction zone _ _ hyear hregular hseparator hpart hoffset =>
      have hmiddle : separator :: (t.chars ++ (fraction ++ zone)) =
          (separator :: (t.chars ++ fraction)) ++ zone := by
        simp
      rw [hmiddle]
      exact Text.trim_append_append (hdate d).1 (hdate d).2 hoffset.nonempty hoffset.not_isBlank _
  | @plain d t fraction _ hyear hregular hpart =>
      have hclock : t.chars ++ fraction ≠ [] := by simp [Clock.chars]
      have hplain : ∀ c ∈ t.chars ++ fraction, Text.isBlank c = false := by
        intro c hc
        rcases List.mem_append.1 hc with hc | hc
        · exact Clock.not_isBlank c hc
        · exact hpart.not_isBlank c hc
      exact Text.trim_append_append (hdate d).1 (hdate d).2 hclock hplain [' ']
  | @date d hyear => exact Text.trim_eq_self (hdate d).2

/-- The hyphens of its date keep an instant from being read as a number. -/
theorem WrittenAs.int?_eq_none (h : r.WrittenAs cs) : Numeral.int? cs = none := by
  obtain ⟨-, rest, rfl⟩ := h.exists_front
  obtain ⟨c, tail, hchars, hc, hhyphen⟩ :=
    exists_head_dateChars r.date.year.toNat r.date.month r.date.day
  rw [Date.chars, hchars, List.cons_append, Option.eq_none_iff_forall_not_mem]
  intro z hz
  cases Numeral.int?_eq_some_iff.1 hz with
  | unsigned hdigits =>
      exact hdigits.not_mem (by decide) (List.mem_cons_of_mem c (List.mem_append_left rest hhyphen))
  | plus => exact absurd hc (by decide)
  | minus => exact absurd hc (by decide)

/-! ### Reading instants -/

/-- The parts of a reading add up to its milliseconds, rounded down. -/
theorem floor_seconds {millis : Nat} (hmillis : ⌊1000 * r.fraction⌋ = millis) :
    ⌊1000 * r.seconds r.date.dayNumber⌋ =
      1000 * (Calendar.seconds r.date r.clock - 60 * r.offset) + millis := by
  have hsum : 1000 * r.seconds r.date.dayNumber =
      ((1000 * (Calendar.seconds r.date r.clock - 60 * r.offset) : Int) : ℚ) +
        1000 * r.fraction := by
    rw [Reading.seconds, Calendar.seconds]
    push_cast
    ring
  rw [hsum, Int.floor_intCast_add, hmillis]

theorem zonedMillis?_zoned {d : Date} {t : Clock} {separator : Char} {fraction zone : List Char}
    {minutes : Int} {millis : Nat} (hyear : d.HasPlainYear) (hregular : t.IsRegular)
    (hseparator : separator ∈ ['T', 't', ' '])
    (hread : leadingFraction? (fraction ++ zone) = some (millis, zone))
    (hoffset : OffsetText zone minutes) :
    zonedMillis? (d.chars ++ separator :: (t.chars ++ (fraction ++ zone))) =
      some (1000 * (Calendar.seconds d t - 60 * minutes) + millis) := by
  have hascii : separator.toNat < 128 := by
    simp only [List.mem_cons, List.not_mem_nil, or_false] at hseparator
    rcases hseparator with rfl | rfl | rfl <;> decide
  rw [zonedMillis?, Date.leadingDate?_chars false hyear]
  simp only [Option.bind_eq_bind, Option.bind_some, Clock.leadingClock?_chars hregular, hread,
    hoffset.offsetMinutes?_eq]
  rw [if_neg (not_not.2 hascii), if_pos hregular.second_lt]

/-- Without an offset the first of the forms is not met. -/
theorem zonedMillis?_plain {d : Date} {t : Clock} {fraction : List Char} {millis : Nat}
    (hyear : d.HasPlainYear) (hregular : t.IsRegular)
    (hread : leadingFraction? fraction = some (millis, [])) :
    zonedMillis? (d.chars ++ ' ' :: (t.chars ++ fraction)) = none := by
  rw [zonedMillis?, Date.leadingDate?_chars false hyear]
  simp [Clock.leadingClock?_chars hregular, hread, offsetMinutes?]

theorem zonedMillis?_date {d : Date} (hyear : d.HasPlainYear) : zonedMillis? d.chars = none := by
  have hlead := Date.leadingDate?_chars false hyear []
  rw [List.append_nil] at hlead
  rw [zonedMillis?, hlead]
  rfl

theorem plainMillis?_plain {d : Date} {t : Clock} {fraction : List Char} {millis : Nat}
    (hyear : d.HasPlainYear) (hregular : t.IsRegular)
    (hread : leadingFraction? fraction = some (millis, [])) :
    plainMillis? (d.chars ++ ' ' :: (t.chars ++ fraction)) =
      some (1000 * Calendar.seconds d t + millis) := by
  rw [plainMillis?, Date.leadingDate?_chars true hyear]
  simp [Clock.leadingClock?_chars hregular, hread, hregular.second_lt]

theorem plainMillis?_date {d : Date} (hyear : d.HasPlainYear) :
    plainMillis? d.chars = some (86400000 * d.dayNumber) := by
  have hlead := Date.leadingDate?_chars true hyear []
  rw [List.append_nil] at hlead
  rw [plainMillis?, hlead]
  rfl

/-- A written instant is read as its milliseconds, rounded down. -/
theorem instantMillis?_of_writtenAs (h : r.WrittenAs cs) :
    instantMillis? cs = some ⌊1000 * r.seconds r.date.dayNumber⌋ := by
  rw [instantMillis?]
  cases h with
  | zoned hyear hregular hseparator hpart hoffset =>
      obtain ⟨millis, -, hmillis, hread⟩ := hpart.exists_millis
      rw [zonedMillis?_zoned hyear hregular hseparator (hread _ hoffset.endsFraction) hoffset,
        floor_seconds hmillis]
      rfl
  | plain hyear hregular hpart =>
      obtain ⟨millis, -, hmillis, hread⟩ := hpart.exists_millis
      have hend := hread [] endsFraction_nil
      rw [List.append_nil] at hend
      rw [zonedMillis?_plain hyear hregular hend, plainMillis?_plain hyear hregular hend,
        floor_seconds hmillis]
      simp
  | @date d hyear =>
      have hmillis : ⌊(1000 : ℚ) * 0⌋ = (0 : Nat) := by simp
      rw [zonedMillis?_date hyear, plainMillis?_date hyear, floor_seconds hmillis]
      refine congrArg some ?_
      simp only [Calendar.seconds]
      omega

/-- The milliseconds of an instant have at most 64 bits. -/
theorem fits_of_writtenAs (h : r.WrittenAs cs) :
    TwosComplement.fits 8 ⌊1000 * r.seconds r.date.dayNumber⌋ = true := by
  have hbounds := Date.dayNumber_bounds_of_plainYear h.exists_front.1
  obtain ⟨millis, hlt, hmillis⟩ := h.exists_millis
  obtain ⟨hhour, hminute, hsecond⟩ := h.isRegular
  have hoffset := h.offset_bounds
  rw [TwosComplement.fits_iff, floor_seconds hmillis, Calendar.seconds]
  omega

end Reading

end Calendar

namespace Key

open Calendar

section Column

variable {column : Column} (htimestamp : column.type = .timestamp)

include htimestamp

theorem encodeLiteral_of_timestampMillis? {value : String} {millis : Int}
    (hread : timestampMillis? (Text.trim value.toList) = some millis) :
    encodeLiteral column value = .ok (TwosComplement.fixed 8 millis) := by
  rw [encodeLiteral_eq_ok_iff, htimestamp, encodeText_timestamp_of_some hread]

theorem encodeLiteral_instant {r : Reading} {value : String} (h : r.WrittenAs value.toList) :
    encodeLiteral column value =
      .ok (TwosComplement.fixed 8 ⌊1000 * r.seconds r.date.dayNumber⌋) := by
  refine encodeLiteral_of_timestampMillis? htimestamp ?_
  rw [h.trim_eq, timestampMillis?, h.int?_eq_none]
  exact Reading.instantMillis?_of_writtenAs h

theorem encodeLiteral_millis {millis : Int} (hfits : TwosComplement.fits 8 millis = true) :
    encodeLiteral column (Numeral.text millis) = .ok (TwosComplement.fixed 8 millis) := by
  refine encodeLiteral_of_timestampMillis? htimestamp ?_
  rw [Numeral.trim_text, timestampMillis?_chars hfits]

end Column

/-- What a column of instants makes of written instants. -/
structure StoresInstants (column : Column) : Prop where
  /-- An instant is stored in eight bytes, in two's complement, as its milliseconds from
      1970-01-01T00:00:00 UTC, rounded down; the decimal text of that number is stored alike. -/
  counts : ∀ (r : Reading) (value : String), r.WrittenAs value.toList →
    ∃ (days : Int) (bytes : Bytes), r.date.IsDay days ∧ encodeLiteral column value = .ok bytes ∧
      bytes.length = 8 ∧ TwosComplement.value bytes = ⌊1000 * r.seconds days⌋ ∧
      encodeLiteral column (Numeral.text ⌊1000 * r.seconds days⌋) = .ok bytes
  /-- An instant is stored alike however it is written and wherever it is read off. -/
  agrees : ∀ (r r' : Reading) (value value' : String) (days days' : Int),
    r.WrittenAs value.toList → r'.WrittenAs value'.toList → r.date.IsDay days →
    r'.date.IsDay days' → r.seconds days = r'.seconds days' →
      encodeLiteral column value = encodeLiteral column value'

end Key

/-- A column of instants stores their milliseconds, rounded down, however they are written. -/
theorem instants_stored (column : Column) (htimestamp : column.type = .timestamp) :
    Key.StoresInstants column where
  counts r value h := by
    have hfits := Calendar.Reading.fits_of_writtenAs h
    exact ⟨r.date.dayNumber, _, Calendar.Date.isDay_iff.2 rfl,
      Key.encodeLiteral_instant htimestamp h, TwosComplement.length_fixed _ _,
      TwosComplement.value_fixed (by decide) hfits, Key.encodeLiteral_millis htimestamp hfits⟩
  agrees r r' value value' days days' h h' hdays hdays' hseconds := by
    rw [← Calendar.Date.isDay_iff.1 hdays, ← Calendar.Date.isDay_iff.1 hdays'] at hseconds
    rw [Key.encodeLiteral_instant htimestamp h, Key.encodeLiteral_instant htimestamp h', hseconds]

/-- Just after half past eleven in UTC on the last day of 1969, half an hour to the east of UTC and in
    UTC itself. -/
theorem instants_stored_around_new_year :
    let column : Column := ⟨"pk", .partitionKey, 0, .timestamp⟩
    column.type = .timestamp ∧
      Key.encodeLiteral column "1970-01-01T00:00:00.0005+00:30" =
        .ok [0xFF, 0xFF, 0xFF, 0xFF, 0xFF, 0xE4, 0x88, 0xC0] ∧
      Key.encodeLiteral column "1969-12-31 23:30:00.0005" =
        .ok [0xFF, 0xFF, 0xFF, 0xFF, 0xFF, 0xE4, 0x88, 0xC0] := by
  intro column
  have hstored : Key.StoresInstants column := instants_stored column rfl
  let digits : List Char := ['0', '0', '0', '5']
  have hpart : Calendar.FractionText ('.' :: digits) (5 / 10 ^ 4) :=
    .digits (Numeral.nat?_eq_some_iff.1 (by decide))
  let east : Calendar.Reading := ⟨.epoch, ⟨0, 0, 0⟩, 5 / 10 ^ 4, 30⟩
  let utc : Calendar.Reading :=
    ⟨⟨1969, 12, 31, by decide, by decide⟩, ⟨23, 30, 0⟩, 5 / 10 ^ 4, 0⟩
  have heast : east.WrittenAs "1970-01-01T00:00:00.0005+00:30".toList := by
    have htext : "1970-01-01T00:00:00.0005+00:30".toList = east.date.chars ++
        'T' :: (east.clock.chars ++ (('.' :: digits) ++ "+00:30".toList)) := by
      decide +kernel
    have hoffset : Calendar.OffsetText "+00:30".toList 30 :=
      .east (show 0 < 24 by decide) (show 30 < 60 by decide)
    rw [htext]
    exact .zoned (by decide) ⟨by decide, by decide, by decide⟩ (by decide) hpart hoffset
  have hutc : utc.WrittenAs "1969-12-31 23:30:00.0005".toList := by
    have htext : "1969-12-31 23:30:00.0005".toList =
        utc.date.chars ++ ' ' :: (utc.clock.chars ++ ('.' :: digits)) := by
      decide +kernel
    rw [htext]
    exact .plain (by decide) ⟨by decide, by decide, by decide⟩ hpart
  obtain ⟨days, bytes, hdays, hbytes, -, -, hnumber⟩ := hstored.counts east _ heast
  have hcount : days = 0 := by
    rw [← Calendar.Date.isDay_iff.1 hdays]
    decide
  have hmillis : ⌊1000 * east.seconds 0⌋ = -1800000 := by
    rw [Int.floor_eq_iff]
    norm_num [east, Calendar.Reading.seconds]
  have hspelt : Key.encodeLiteral column (Numeral.text (-1800000)) =
      .ok [0xFF, 0xFF, 0xFF, 0xFF, 0xFF, 0xE4, 0x88, 0xC0] := by decide +kernel
  rw [hcount, hmillis, hspelt] at hnumber
  obtain rfl := Except.ok.inj hnumber
  refine ⟨rfl, hbytes, ?_⟩
  have hdays' : utc.date.IsDay (-1) := Calendar.Date.isDay_iff.2 (by decide)
  have hseconds : utc.seconds (-1) = east.seconds 0 := by
    norm_num [utc, east, Calendar.Reading.seconds]
  rw [← hbytes]
  exact hstored.agrees utc east _ _ (-1) 0 hutc heast hdays' (hcount ▸ hdays) hseconds

end TokenScan
