/-
Module: TokenScan.Proofs.IntegerColumns
Purpose: The columns of integers of fixed width. Such a column takes the texts of the integers of its
  signed range, with blanks around them or not, and stores them in two's complement; so its bytes
  tell the integer, and nothing else of the text.
Main exports: ColumnType.integerWidth?, Key.encodeText_integer, Key.StoresIntegers,
  integers_stored
-/
import TokenScan.Proofs.WrittenIntegers

namespace TokenScan

open TokenScan.Number

/-- How many bytes an integer has in a column of this type, if its integers are of fixed width. -/
def ColumnType.integerWidth? : ColumnType → Option Nat
  | .tinyint => some 1
  | .smallint => some 2
  | .int => some 4
  | .bigint | .counter => some 8
  | _ => none

theorem ColumnType.integerWidth_bounds {type : ColumnType} {width : Nat}
    (h : type.integerWidth? = some width) : 0 < width ∧ width ≤ 8 := by
  unfold integerWidth? at h
  split at h <;> simp at h <;> omega

namespace Key

theorem encodeText_integer {type : ColumnType} {width : Nat}
    (hwidth : type.integerWidth? = some width) (value : String) :
    encodeText type value = encodeInteger type width (Text.trim value.toList) := by
  unfold ColumnType.integerWidth? at hwidth
  split at hwidth <;> simp at hwidth <;> subst hwidth <;> rfl

/-- What a column of integers of so many bytes takes, and what its bytes tell. -/
structure StoresIntegers (column : Column) (width : Nat) : Prop where
  /-- A value is taken exactly when, without the blanks around it, it is the text of an integer of
      the signed range, and that integer is stored in two's complement. -/
  takes : ∀ (value : String) (bytes : Bytes), encodeLiteral column value = .ok bytes ↔
    ∃ z : Int, IntegerText (Text.trim value.toList) z ∧
      (-2 ^ (8 * width - 1) ≤ z ∧ z < 2 ^ (8 * width - 1)) ∧ bytes = TwosComplement.fixed width z
  /-- The bytes are as many as the column has, and denote the integer. -/
  denotes : ∀ (value : String) (bytes : Bytes) (z : Int), encodeLiteral column value = .ok bytes →
    IntegerText (Text.trim value.toList) z →
      bytes.length = width ∧ TwosComplement.value bytes = z
  /-- Two values have the same bytes exactly when they are texts of the same integer. -/
  separates : ∀ (value value' : String) (bytes bytes' : Bytes) (z z' : Int),
    encodeLiteral column value = .ok bytes → encodeLiteral column value' = .ok bytes' →
    IntegerText (Text.trim value.toList) z → IntegerText (Text.trim value'.toList) z' →
      (bytes = bytes' ↔ z = z')

section Column

variable {column : Column} {width : Nat} (hwidth : column.type.integerWidth? = some width)

include hwidth

theorem encodeLiteral_integer_eq_ok_iff {value : String} {bytes : Bytes} :
    encodeLiteral column value = .ok bytes ↔
      ∃ z, IntegerText (Text.trim value.toList) z ∧ TwosComplement.fits width z = true ∧
        bytes = TwosComplement.fixed width z := by
  have hle : width ≤ 16 := (ColumnType.integerWidth_bounds hwidth).2.trans (by decide)
  rw [encodeLiteral_eq_ok_iff, encodeText_integer hwidth, encodeInteger_eq_ok_iff hle]

theorem fixed_of_encodeLiteral {value : String} {bytes : Bytes} {z : Int}
    (h : encodeLiteral column value = .ok bytes) (htext : IntegerText (Text.trim value.toList) z) :
    TwosComplement.fits width z = true ∧ bytes = TwosComplement.fixed width z := by
  obtain ⟨z', htext', hfits, hbytes⟩ := (encodeLiteral_integer_eq_ok_iff hwidth).1 h
  obtain rfl := htext.unique htext'
  exact ⟨hfits, hbytes⟩

/-- A value without blanks that is read as an integer is stored if it fits. -/
theorem encodeLiteral_of_int? {value : String} {z : Int}
    (hread : Numeral.int? value.toList = some z)
    (hplain : ∀ c ∈ value.toList, Text.isBlank c = false)
    (hfits : TwosComplement.fits 16 z = true) :
    encodeLiteral column value =
      if TwosComplement.fits width z then .ok (TwosComplement.fixed width z)
      else .error ⟨column.name, value, .outOfRange column.type⟩ := by
  rw [encodeLiteral, encodeText_integer hwidth, Text.trim_eq_self hplain,
    encodeInteger_of_int? column.type width hread hfits]
  split_ifs <;> rfl

end Column

end Key

/-- A column of a fixed-width integer type stores the integers of its signed range and tells them
    apart, however they are written. -/
theorem integers_stored (column : Column) {width : Nat}
    (hwidth : column.type.integerWidth? = some width) : Key.StoresIntegers column width where
  takes value bytes := by
    simp only [Key.encodeLiteral_integer_eq_ok_iff hwidth, TwosComplement.fits_iff]
  denotes value bytes z h htext := by
    obtain ⟨hfits, rfl⟩ := Key.fixed_of_encodeLiteral hwidth h htext
    have hpos := (ColumnType.integerWidth_bounds hwidth).1
    exact ⟨TwosComplement.length_fixed width z, TwosComplement.value_fixed hpos hfits⟩
  separates value value' bytes bytes' z z' h h' htext htext' := by
    obtain ⟨hfits, rfl⟩ := Key.fixed_of_encodeLiteral hwidth h htext
    obtain ⟨hfits', rfl⟩ := Key.fixed_of_encodeLiteral hwidth h' htext'
    have hpos := (ColumnType.integerWidth_bounds hwidth).1
    exact ⟨TwosComplement.fixed_injective hpos hfits hfits', congrArg _⟩

/-- A negative integer with leading zeros, a fraction of zeros and blanks around it, and the one
    below the least that two bytes hold. -/
theorem integers_stored_in_two_bytes :
    let column : Column := ⟨"pk", .partitionKey, 0, .smallint⟩
    column.type.integerWidth? = some 2 ∧
      Key.encodeLiteral column "\u2003-0007.00\t" = .ok [0xFF, 0xF9] ∧
      ∀ bytes, Key.encodeLiteral column "-32769" ≠ .ok bytes := by
  intro column
  have hstored : Key.StoresIntegers column 2 := integers_stored column rfl
  refine ⟨rfl, ?_, ?_⟩
  · rw [hstored.takes]
    have htrim : Text.trim "\u2003-0007.00\t".toList =
        '-' :: "0007".toList ++ '.' :: List.replicate 2 '0' := by decide +kernel
    rw [htrim]
    have hdigits : Numeral.Digits "0007".toList 7 := Numeral.nat?_eq_some_iff.1 (by decide)
    exact ⟨-7, .pointed (.minus hdigits) 1, by decide, by decide⟩
  · intro bytes h
    rw [hstored.takes] at h
    obtain ⟨z, htext, hrange, -⟩ := h
    have hwritten : Key.IntegerText (Text.trim "-32769".toList) (-32769) := by
      have htrim : Text.trim "-32769".toList = '-' :: "32769".toList := by decide +kernel
      have hdigits : Numeral.Digits "32769".toList 32769 := Numeral.nat?_eq_some_iff.1 (by decide)
      rw [htrim]
      exact .numeral (.minus hdigits)
    obtain rfl := htext.unique hwritten
    exact absurd hrange.1 (by decide)

end TokenScan
