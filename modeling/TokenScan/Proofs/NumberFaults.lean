/-
Module: TokenScan.Proofs.NumberFaults
Purpose: Why a number is refused. A date column tells numbers that do not fit from texts that are no
  dates, however many digits they have. A column of integers of fixed width tells them apart only
  within 128 bits; a longer integer is refused as if it were none.
Main exports: Key.encodeLiteral_integer_outOfRange_iff, Key.encodeLiteral_integer_malformed_iff,
  number_refused_iff
-/
import TokenScan.Proofs.DateNumbers
import TokenScan.Proofs.IntegerColumns

namespace TokenScan

open TokenScan.Number

namespace Key

section Column

variable {column : Column} {width : Nat} (hwidth : column.type.integerWidth? = some width)
  {value : String}

include hwidth

theorem encodeLiteral_integer_outOfRange_iff :
    encodeLiteral column value = .error ⟨column.name, value, .outOfRange column.type⟩ ↔
      ∃ z, IntegerText (Text.trim value.toList) z ∧ TwosComplement.fits width z = false ∧
        TwosComplement.fits 16 z = true := by
  rw [encodeLiteral_eq_error_iff, encodeText_integer hwidth, encodeInteger_outOfRange_iff]

theorem encodeLiteral_integer_malformed_iff :
    encodeLiteral column value = .error ⟨column.name, value, .malformed column.type⟩ ↔
      ∀ z, IntegerText (Text.trim value.toList) z → TwosComplement.fits 16 z = false := by
  rw [encodeLiteral_eq_error_iff, encodeText_integer hwidth, encodeInteger_malformed_iff]

end Column

end Key

/-- A number that does not fit its column is refused as out of range, in a date column always and in
    a column of integers if it has at most 128 bits; what else these columns refuse is malformed. -/
theorem number_refused_iff (column : Column) (value : String) :
    (∀ width, column.type.integerWidth? = some width →
      (Key.encodeLiteral column value = .error ⟨column.name, value, .outOfRange column.type⟩ ↔
        ∃ z : Int, Key.IntegerText (Text.trim value.toList) z ∧
          ¬ (-2 ^ (8 * width - 1) ≤ z ∧ z < 2 ^ (8 * width - 1)) ∧
          (-2 ^ 127 ≤ z ∧ z < 2 ^ 127)) ∧
      (Key.encodeLiteral column value = .error ⟨column.name, value, .malformed column.type⟩ ↔
        ∀ z : Int, Key.IntegerText (Text.trim value.toList) z →
          ¬ (-2 ^ 127 ≤ z ∧ z < 2 ^ 127))) ∧
    (column.type = .date →
      (Key.encodeLiteral column value = .error ⟨column.name, value, .outOfRange column.type⟩ ↔
        ∃ n, Key.DateNumber (Text.trim value.toList) n ∧ ¬ (0 ≤ n ∧ n < 2 ^ 32)) ∧
      (Key.encodeLiteral column value = .error ⟨column.name, value, .malformed column.type⟩ ↔
        (∀ n, ¬ Key.DateNumber (Text.trim value.toList) n) ∧
          Calendar.date? (Text.trim value.toList) = none)) := by
  constructor
  · intro width hwidth
    rw [Key.encodeLiteral_integer_outOfRange_iff hwidth,
      Key.encodeLiteral_integer_malformed_iff hwidth]
    simp only [Bool.eq_false_iff, ne_eq, TwosComplement.fits_iff, and_self]
  · intro hdate
    rw [Key.encodeLiteral_eq_error_iff, Key.encodeLiteral_eq_error_iff, hdate, Key.encodeText_date]
    exact ⟨Key.encodeDate_outOfRange_iff .date, Key.encodeDate_malformed_iff .date⟩

/-- An integer too great for 64 bits, and a number of forty digits in a date column. -/
theorem number_refused_iff_of_excess :
    let bigint : Column := ⟨"pk", .partitionKey, 0, .bigint⟩
    let date : Column := ⟨"pk", .partitionKey, 0, .date⟩
    let forty : String := "1000000000000000000000000000000000000000"
    (bigint.type.integerWidth? = some 8 ∧
      Key.encodeLiteral bigint "+9223372036854775808" =
        .error ⟨"pk", "+9223372036854775808", .outOfRange .bigint⟩) ∧
    (date.type = .date ∧
      Key.encodeLiteral date forty = .error ⟨"pk", forty, .outOfRange .date⟩) := by
  intro bigint date forty
  constructor
  · have hwritten : Key.IntegerText (Text.trim "+9223372036854775808".toList) (2 ^ 63) := by
      have htrim : Text.trim "+9223372036854775808".toList =
          '+' :: "9223372036854775808".toList := by decide +kernel
      have hdigits : Numeral.Digits "9223372036854775808".toList (2 ^ 63) :=
        Numeral.nat?_eq_some_iff.1 (by decide +kernel)
      rw [htrim]
      exact .numeral (.plus hdigits)
    have hrefused := ((number_refused_iff bigint "+9223372036854775808").1 8 rfl).1
    exact ⟨rfl, hrefused.2 ⟨2 ^ 63, hwritten, by decide, by decide⟩⟩
  · have hwritten : Key.DateNumber (Text.trim forty.toList) (10 ^ 39) :=
      .plain (Numeral.nat?_eq_some_iff.1 (by decide +kernel))
    have hrefused := ((number_refused_iff date forty).2 rfl).1
    exact ⟨rfl, hrefused.2 ⟨10 ^ 39, hwritten, by decide⟩⟩

/-- Two to the hundred and twenty-seventh is an integer that does not fit four bytes, but a column of
    such integers calls it malformed; a date column calls it out of range. -/
theorem malformed_of_two_pow_127 :
    let int : Column := ⟨"pk", .partitionKey, 0, .int⟩
    let date : Column := ⟨"pk", .partitionKey, 0, .date⟩
    let value : String := "170141183460469231731687303715884105728"
    Numeral.Digits (Text.trim value.toList) (2 ^ 127) ∧
      ¬ ((2 : Int) ^ 127 < 2 ^ (8 * 4 - 1)) ∧
      Key.encodeLiteral int value = .error ⟨"pk", value, .malformed .int⟩ ∧
      Key.encodeLiteral int value ≠ .error ⟨"pk", value, .outOfRange .int⟩ ∧
      Key.encodeLiteral date value = .error ⟨"pk", value, .outOfRange .date⟩ := by
  intro int date value
  refine ⟨Numeral.nat?_eq_some_iff.1 ?_, ?_, ?_, ?_, ?_⟩
  all_goals decide +kernel

end TokenScan
