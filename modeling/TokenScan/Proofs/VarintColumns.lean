/-
Module: TokenScan.Proofs.VarintColumns
Purpose: The columns of integers of any size, alone and beside those of a fixed width. Such a column
  stores every integer in its fewest bytes. It reads what a column of a fixed width reads, as the same
  integer, except that it knows no point: of the texts of integers it refuses those that have one.
Main exports: Key.encodeLiteral_varint, Key.StoresEveryInteger, every_integer_stored,
  Key.DenotesInteger, integer_in_wider_columns
-/
import TokenScan.Proofs.IntegerColumns
import TokenScan.Proofs.SignMagnitude

namespace TokenScan

open TokenScan.Number

namespace Key

/-! ### Integers of any size -/

section Varint

variable {column : Column} (hvarint : column.type = .varint)

include hvarint

/-- A column of integers of any size takes the texts of integers that have no point. -/
theorem encodeLiteral_varint {value : String} {z : Int}
    (htext : IntegerText (Text.trim value.toList) z) :
    encodeLiteral column value =
      if '.' ∈ value.toList then .error ⟨column.name, value, .malformed .varint⟩
      else .ok (TwosComplement.ofSignMagnitude z) := by
  have hread := varint?_of_integerText htext
  simp only [Text.mem_trim (show Text.isBlank '.' = false by decide)] at hread
  split_ifs at hread ⊢ with hpoint
  · rw [encodeLiteral_eq_error_iff, hvarint, encodeText_varint_of_none hread]
  · rw [encodeLiteral_eq_ok_iff, hvarint, encodeText_varint_of_some hread,
      TwosComplement.ofSignMagnitude_eq]

theorem encodeLiteral_varint_text (z : Int) :
    encodeLiteral column (Numeral.text z) = .ok (TwosComplement.ofSignMagnitude z) := by
  have hread : varint? (Text.trim (Numeral.text z).toList) = some z := by
    rw [Numeral.trim_text, varint?_of_writes (Numeral.writes_chars z)]
  rw [encodeLiteral_eq_ok_iff, hvarint, encodeText_varint_of_some hread,
    TwosComplement.ofSignMagnitude_eq]

theorem shortest_of_encodeLiteral_varint {z : Int} {bytes : Bytes}
    (h : encodeLiteral column (Numeral.text z) = .ok bytes) :
    TwosComplement.Shortest z bytes := by
  rw [encodeLiteral_varint_text hvarint, Except.ok.injEq] at h
  rw [TwosComplement.shortest_iff, ← h, TwosComplement.ofSignMagnitude_eq]

end Varint

/-- A column that stores every integer, from its decimal text, in the fewest bytes. -/
structure StoresEveryInteger (column : Column) : Prop where
  /-- No integer is too great, and its bytes come from its sign and its magnitude. -/
  takes : ∀ z : Int,
    encodeLiteral column (Numeral.text z) = .ok (TwosComplement.ofSignMagnitude z)
  /-- The bytes denote the integer, and no fewer bytes do. -/
  shortest : ∀ (z : Int) (bytes : Bytes), encodeLiteral column (Numeral.text z) = .ok bytes →
    TwosComplement.Shortest z bytes
  /-- The first byte does not only repeat the sign that the second one shows. -/
  unpadded : ∀ (z : Int) (b b' : UInt8) (bs : Bytes),
    encodeLiteral column (Numeral.text z) = .ok (b :: b' :: bs) →
      ¬ (b = 0 ∧ b'.toNat < 128) ∧ ¬ (b = 0xFF ∧ 128 ≤ b'.toNat)
  zero : encodeLiteral column (Numeral.text 0) = .ok [0]
  separates : ∀ (z z' : Int) (bytes : Bytes), encodeLiteral column (Numeral.text z) = .ok bytes →
    encodeLiteral column (Numeral.text z') = .ok bytes → z = z'

end Key

/-- A column of integers of any size stores every integer in its fewest bytes. -/
theorem every_integer_stored (column : Column) (hvarint : column.type = .varint) :
    Key.StoresEveryInteger column where
  takes := Key.encodeLiteral_varint_text hvarint
  shortest _ _ := Key.shortest_of_encodeLiteral_varint hvarint
  unpadded z b b' bs h :=
    not_or.1 (Key.shortest_of_encodeLiteral_varint hvarint h).not_padded
  zero := by
    rw [Key.encodeLiteral_varint_text hvarint, TwosComplement.ofSignMagnitude_eq]
    rfl
  separates z z' bytes h h' := by
    rw [← (Key.shortest_of_encodeLiteral_varint hvarint h).denotes,
      (Key.shortest_of_encodeLiteral_varint hvarint h').denotes]

/-- The least integer of seventeen bytes needs no byte for its sign, but its negative does. -/
theorem every_integer_stored_of_two_pow_135 :
    let column : Column := ⟨"pk", .partitionKey, 0, .varint⟩
    column.type = .varint ∧
      Key.encodeLiteral column "-43556142965880123323311949751266331066368" =
        .ok (0x80 :: List.replicate 16 0) ∧
      Key.encodeLiteral column "43556142965880123323311949751266331066368" =
        .ok (0 :: 0x80 :: List.replicate 16 0) := by
  intro column
  have hstored : Key.StoresEveryInteger column := every_integer_stored column rfl
  have hleast := hstored.takes (-2 ^ 135)
  have hnegative := hstored.takes (2 ^ 135)
  rw [TwosComplement.ofSignMagnitude_eq] at hleast hnegative
  refine ⟨rfl, ?_, ?_⟩
  · have htext : Numeral.text (-2 ^ 135) = "-43556142965880123323311949751266331066368" := by
      decide +kernel
    rw [← htext, hleast]
    decide +kernel
  · have htext : Numeral.text (2 ^ 135) = "43556142965880123323311949751266331066368" := by
      decide +kernel
    rw [← htext, hnegative]
    decide +kernel

/-! ### One literal in several columns -/

/-- A value as the text of one integer in the columns that have room for so many bytes: those of a
    fixed width store it, and one of integers of any size does unless the value has a point. -/
structure Key.DenotesInteger (value : String) (width : Nat) (z : Int) : Prop where
  wider : ∀ (column : Column) (width' : Nat), column.type.integerWidth? = some width' →
    width ≤ width' → encodeLiteral column value = .ok (TwosComplement.fixed width' z)
  unbounded : ∀ column : Column, column.type = .varint →
    encodeLiteral column value =
      if '.' ∈ value.toList then .error ⟨column.name, value, .malformed .varint⟩
      else .ok (TwosComplement.ofSignMagnitude z)
  /-- Whatever column of integers takes the value, the bytes denote the same integer. -/
  denotes : ∀ (column : Column) (bytes : Bytes),
    column.type.integerWidth?.isSome ∨ column.type = .varint →
      encodeLiteral column value = .ok bytes → TwosComplement.value bytes = z

/-- A value that a column of integers of fixed width takes is the text of one integer in all columns
    of integers that are no narrower, but one of integers of any size refuses it if it has a point. -/
theorem integer_in_wider_columns (narrow : Column) {width : Nat}
    (hwidth : narrow.type.integerWidth? = some width) {value : String} {bytes : Bytes}
    (htaken : Key.encodeLiteral narrow value = .ok bytes) :
    Key.DenotesInteger value width (TwosComplement.value bytes) := by
  obtain ⟨z, htext, hfits, rfl⟩ := (Key.encodeLiteral_integer_eq_ok_iff hwidth).1 htaken
  rw [TwosComplement.value_fixed (ColumnType.integerWidth_bounds hwidth).1 hfits]
  refine ⟨?_, ?_, ?_⟩
  · intro column width' hwidth' hle
    rw [Key.encodeLiteral_integer_eq_ok_iff hwidth']
    exact ⟨z, htext, TwosComplement.fits_mono hle hfits, rfl⟩
  · intro column hvarint
    exact Key.encodeLiteral_varint hvarint htext
  · rintro column bytes (hfixed | hvarint) hbytes
    · obtain ⟨width', hwidth'⟩ := Option.isSome_iff_exists.1 hfixed
      obtain ⟨hfits', rfl⟩ := Key.fixed_of_encodeLiteral hwidth' hbytes htext
      exact TwosComplement.value_fixed (ColumnType.integerWidth_bounds hwidth').1 hfits'
    · rw [Key.encodeLiteral_varint hvarint htext] at hbytes
      split_ifs at hbytes
      rw [← Except.ok.inj hbytes, TwosComplement.value_ofSignMagnitude]

/-- A negative integer with a blank and leading zeros, in one byte, in eight and in as many as it
    needs. -/
theorem integer_in_wider_columns_of_minus_seven :
    let tinyint : Column := ⟨"pk", .partitionKey, 0, .tinyint⟩
    let counter : Column := ⟨"pk", .partitionKey, 0, .counter⟩
    let varint : Column := ⟨"pk", .partitionKey, 0, .varint⟩
    (tinyint.type.integerWidth? = some 1 ∧ Key.encodeLiteral tinyint " -007" = .ok [0xF9]) ∧
      Key.encodeLiteral counter " -007" = .ok [0xFF, 0xFF, 0xFF, 0xFF, 0xFF, 0xFF, 0xFF, 0xF9] ∧
      Key.encodeLiteral varint " -007" = .ok [0xF9] := by
  intro tinyint counter varint
  have htaken : Key.encodeLiteral tinyint " -007" = .ok [0xF9] := by decide +kernel
  have hdenotes : Key.DenotesInteger " -007" 1 (-7) := integer_in_wider_columns tinyint rfl htaken
  refine ⟨⟨rfl, htaken⟩, hdenotes.wider counter 8 rfl (by decide), ?_⟩
  rw [hdenotes.unbounded varint rfl, if_neg (by decide), TwosComplement.ofSignMagnitude_eq]
  rfl

/-- A column of four bytes takes three with a fraction of zeros, and so does one of eight; a column of
    integers of any size calls it malformed. -/
theorem point_refused_by_varint :
    let int : Column := ⟨"pk", .partitionKey, 0, .int⟩
    let bigint : Column := ⟨"pk", .partitionKey, 0, .bigint⟩
    let varint : Column := ⟨"pk", .partitionKey, 0, .varint⟩
    Key.encodeLiteral int "3.0" = .ok [0, 0, 0, 3] ∧
      Key.encodeLiteral bigint "3.0" = .ok [0, 0, 0, 0, 0, 0, 0, 3] ∧
      Key.encodeLiteral varint "3.0" = .error ⟨"pk", "3.0", .malformed .varint⟩ ∧
      ¬ ∃ bytes, Key.encodeLiteral varint "3.0" = .ok bytes := by
  intro int bigint varint
  have hrefused : Key.encodeLiteral varint "3.0" = .error ⟨"pk", "3.0", .malformed .varint⟩ := by
    decide +kernel
  refine ⟨by decide +kernel, by decide +kernel, hrefused, ?_⟩
  rintro ⟨bytes, hbytes⟩
  rw [hrefused] at hbytes
  exact absurd hbytes (by simp)

end TokenScan
