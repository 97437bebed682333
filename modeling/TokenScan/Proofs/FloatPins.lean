/-
Module: TokenScan.Proofs.FloatPins
Purpose: Float literals on columns of 64-bit integers. The text of a float is read as the integer
  that its digits and zeros show, which is the integer the float is unless a rounder one is rounded
  to it.
Main exports: encodeLiteral_int, encodeLiteral_float, float_pin_of_integer
-/
import TokenScan.Proofs.LiteralTexts
import TokenScan.Proofs.WholeFloats

namespace TokenScan

open TokenScan.Number
open TokenScan.Binary

/-- The least integer of 64 bits is a float whose text shows a lesser integer. -/
theorem lt_of_shortestOf_min {w : Int} (h : Binary64.ShortestOf (-2 ^ 63) w) : w < -2 ^ 63 := by
  obtain ⟨hsign, hsame⟩ := Binary64.ofInt_eq_iff.1 h.sameFloat
  have hround : Binary64.ofInt (-9223372036854776000) = Binary64.ofInt (-2 ^ 63) := by
    decide +kernel
  have hthousand : (10 : Int) ^ 3 ∣ w :=
    h.roundest (-9223372036854776000) 3 (hround.trans h.sameFloat.symm) (by decide)
  by_contra hleast
  -- The next multiple of a thousand towards zero is rounded to another float.
  have hbelow : w.natAbs ≤ 9223372036854775000 := by
    have hnegative := hsign.2 (by decide)
    norm_num at hthousand hleast
    omega
  have hless : binary64.nearest 9223372036854775000 1 < binary64.nearest (2 ^ 63) 1 := by
    decide +kernel
  exact absurd hsame ((binary64.nearest_whole_mono hbelow).trans_lt hless).ne

theorem fits_iff_of_shortestOf {bits : UInt64} {n : Int64} {w : Int}
    (hvalue : Binary64.Denotes bits n.toInt) (hshown : Binary64.ShortestOf n.toInt w) :
    TwosComplement.fits 8 w = true ↔ n ≠ Int64.minValue := by
  constructor
  · rintro hfits rfl
    have hleast := (TwosComplement.fits_iff.1 hfits).1
    exact absurd (lt_of_shortestOf_min hshown) (Int.not_lt.2 hleast)
  · intro hne
    have hlower := n.le_toInt
    have hupper := n.toInt_lt
    have hleast : n.toInt ≠ -2 ^ 63 := fun h => hne (Int64.toInt_inj.1 h)
    have hbound := Binary64.natAbs_lt_of_shortestOf hvalue hshown
      (show n.toInt.natAbs < 2 ^ 63 by omega)
    rw [TwosComplement.fits_iff]
    omega

/-! ### Literals in a column of 64-bit integers -/

section Column

variable {column : Column} (hcolumn : column.type = .bigint)

include hcolumn

theorem encodeLiteral_int (n : Int64) :
    Key.encodeLiteral column (Literal.int n).render = .ok (TwosComplement.fixed 8 n.toInt) := by
  have hwidth : ColumnType.bigint.integerWidth? = some 8 := rfl
  have hstored := Literal.StoredAs.integer hwidth n
  rw [if_pos (TwosComplement.fits_toInt n)] at hstored
  rw [Key.encodeLiteral_eq_ok_iff, hcolumn, Literal.encodeText_render hstored]

theorem encodeLiteral_float {bits : UInt64} {n : Int64} (hvalue : Binary64.Denotes bits n.toInt) :
    ∃ w, Binary64.ShortestOf n.toInt w ∧
      Numeral.int? (Literal.float bits).render.toList = some w ∧
      Key.encodeLiteral column (Literal.float bits).render =
        if n = Int64.minValue then
          .error ⟨column.name, (Literal.float bits).render, .outOfRange .bigint⟩
        else .ok (TwosComplement.fixed 8 w) := by
  obtain ⟨cs, magnitude, htext, hnat, hshown⟩ := Binary64.text_of_denotes hvalue
  have hread := Numeral.int?_signed hnat (binary64.isNegative bits.toNat)
  have hplain := Numeral.not_isBlank_of_mem_signed hnat (binary64.isNegative bits.toNat)
  rw [← htext] at hread hplain
  generalize (if binary64.isNegative bits.toNat then -(magnitude : Int) else magnitude) = w
    at hshown hread
  have hwide : TwosComplement.fits 16 w = true := by
    have hlower := n.le_toInt
    have hupper := n.toInt_lt
    have hbound := Binary64.natAbs_lt_of_shortestOf hvalue hshown
      (show n.toInt.natAbs < 2 ^ 64 by omega)
    rw [TwosComplement.fits_iff]
    omega
  refine ⟨w, hshown, hread, ?_⟩
  have hfits := fits_iff_of_shortestOf hvalue hshown
  have hwidth : column.type.integerWidth? = some 8 := hcolumn ▸ rfl
  refine (Key.encodeLiteral_of_int? hwidth hread hplain hwide).trans ?_
  rw [hcolumn]
  by_cases hmin : n = Int64.minValue
  · rw [if_pos hmin, if_neg (fun h => hfits.1 h hmin)]
    rfl
  · rw [if_neg hmin, if_pos (hfits.2 hmin)]

end Column

/-- A float literal that is an integer of 64 bits gives the key bytes of the integer that its text
    shows: of the integers that are rounded to the float one with the most zeros at the end, and of
    these the nearest. They are the bytes of the integer literal exactly when the integer itself
    ends in as many zeros, as it does up to two to the fifty-third. Only the least integer is
    refused, since the integer that its text shows is less. -/
theorem float_pin_of_integer (column : Column) (hcolumn : column.type = .bigint) (bits : UInt64)
    (n : Int64) (hvalue : Binary64.Denotes bits n.toInt) :
    (∃ w, Binary64.ShortestOf n.toInt w ∧
      Numeral.int? (Literal.float bits).render.toList = some w ∧
      (n = Int64.minValue → w < -2 ^ 63) ∧
      Key.encodeLiteral column (Literal.float bits).render =
        if n = Int64.minValue then
          .error ⟨column.name, (Literal.float bits).render, .outOfRange .bigint⟩
        else .ok (TwosComplement.fixed 8 w)) ∧
    Key.encodeLiteral column (Literal.int n).render = .ok (TwosComplement.fixed 8 n.toInt) ∧
    (Key.encodeLiteral column (Literal.float bits).render =
      Key.encodeLiteral column (Literal.int n).render ↔ Binary64.Roundest n.toInt) ∧
    (n.toInt.natAbs ≤ 2 ^ 53 → Binary64.Roundest n.toInt) := by
  obtain ⟨w, hshown, hread, hfloat⟩ := encodeLiteral_float hcolumn hvalue
  have hint := encodeLiteral_int hcolumn n
  have hless : n = Int64.minValue → w < -2 ^ 63 := by
    rintro rfl
    exact lt_of_shortestOf_min hshown
  refine ⟨⟨w, hshown, hread, hless, hfloat⟩, hint, ?_, Binary64.roundest_of_natAbs_le⟩
  have hfits := fits_iff_of_shortestOf hvalue hshown
  have hfitsInt := TwosComplement.fits_toInt n
  rw [hint, hfloat, ← hshown.eq_iff]
  by_cases hmin : n = Int64.minValue
  · rw [if_pos hmin]
    refine iff_of_false (by simp) ?_
    rintro rfl
    exact hfits.1 hfitsInt hmin
  · rw [if_neg hmin, Except.ok.injEq]
    exact ⟨TwosComplement.fixed_injective (by decide) (hfits.2 hmin) hfitsInt, congrArg _⟩

/-- Two to the fifty-third as a float pins a column to two to the fifty-third. -/
theorem float_pin_of_two_pow_53 :
    let column : Column := ⟨"pk", .partitionKey, 0, .bigint⟩
    let bits : UInt64 := 0x4340000000000000
    let n : Int64 := 9007199254740992
    column.type = .bigint ∧ Binary64.Denotes bits n.toInt ∧ n.toInt.natAbs ≤ 2 ^ 53 ∧
      Key.encodeLiteral column (Literal.float bits).render =
        .ok (TwosComplement.fixed 8 n.toInt) := by
  intro column bits n
  have hvalue : Binary64.Denotes bits n.toInt := by decide +kernel
  have hsmall : n.toInt.natAbs ≤ 2 ^ 53 := by decide
  obtain ⟨-, hint, hpinned, hroundest⟩ := float_pin_of_integer column rfl bits n hvalue
  exact ⟨rfl, hvalue, hsmall, (hpinned.2 (hroundest hsmall)).trans hint⟩

/-- Two to the sixtieth as a float shows another integer, and pins a column to that one. -/
theorem float_pin_of_two_pow_60 :
    let column : Column := ⟨"pk", .partitionKey, 0, .bigint⟩
    let bits : UInt64 := 0x43B0000000000000
    let n : Int64 := 1152921504606846976
    Binary64.Denotes bits n.toInt ∧ (Literal.float bits).render = "1152921504606847000" ∧
      Key.encodeLiteral column (Literal.float bits).render =
        .ok (TwosComplement.fixed 8 1152921504606847000) ∧
      Key.encodeLiteral column (Literal.float bits).render ≠
        .ok (TwosComplement.fixed 8 n.toInt) ∧
      Key.encodeLiteral column (Literal.float bits).render ≠
        Key.encodeLiteral column (Literal.int n).render := by
  decide +kernel

end TokenScan
