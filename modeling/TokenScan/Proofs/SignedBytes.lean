/-
Module: TokenScan.Proofs.SignedBytes
Purpose: Integers and the bytes that spell them in two's complement. So many bytes denote only
  integers of their signed range, and an integer of that range is read back from its bytes, so
  different integers are spelled differently. The fewest bytes of an integer are those of the least
  signed range that holds it, and no others; a byte in front that repeats the sign is none of them.
Main exports: TwosComplement.fits_iff, TwosComplement.value_eq, TwosComplement.fits_value,
  TwosComplement.value_fixed, TwosComplement.fixed_value, TwosComplement.fits_iff_width_le,
  TwosComplement.Shortest, TwosComplement.minimal_shortest, TwosComplement.shortest_iff,
  TwosComplement.Shortest.not_padded
-/
import Mathlib.Algebra.Order.Group.Unbundled.Int
import Mathlib.Tactic.NormNum
import Mathlib.Tactic.Positivity
import Mathlib.Tactic.Zify
import TokenScan.Proofs.ByteNumbers

namespace TokenScan.Number.TwosComplement

/-! ### The signed range of a width -/

theorem fits_iff {width : Nat} {z : Int} :
    fits width z = true ↔ -(2 ^ (8 * width - 1) : Int) ≤ z ∧ z < 2 ^ (8 * width - 1) := by
  simp only [fits, Nat.one_shiftLeft, Bool.and_eq_true, decide_eq_true_eq]
  push_cast
  exact and_comm

theorem fits_mono {width width' : Nat} (hle : width ≤ width') {z : Int}
    (h : fits width z = true) : fits width' z = true := by
  rw [fits_iff] at h ⊢
  have hpow : (2 : Int) ^ (8 * width - 1) ≤ 2 ^ (8 * width' - 1) :=
    pow_le_pow_right₀ (by decide) (by omega)
  omega

theorem fits_toInt (n : Int64) : fits 8 n.toInt = true :=
  fits_iff.2 ⟨n.le_toInt, n.toInt_lt⟩

/-- The signed range is half of the spellings to either side of zero. -/
theorem fits_iff_two_mul {width : Nat} (hwidth : 0 < width) {z : Int} :
    fits width z = true ↔ -(256 ^ width : Int) ≤ 2 * z ∧ 2 * z < 256 ^ width := by
  have hhalf : (256 : Int) ^ width = 2 * 2 ^ (8 * width - 1) := by
    rw [← pow_succ', Nat.sub_add_cancel (by omega), pow_mul]
    norm_num
  rw [fits_iff, hhalf]
  omega

/-! ### Reading back -/

/-- So many bytes have as many spellings as the integers that they tell apart. -/
theorem modulus_eq (width : Nat) : ((1 <<< (8 * width) : Nat) : Int) = 256 ^ width := by
  rw [Nat.one_shiftLeft, pow_mul]
  norm_num

/-- The upper half of the spellings denotes negative integers. -/
theorem value_eq {bs : Bytes} (hne : bs ≠ []) :
    value bs = if 2 * ofBigEndian bs < 256 ^ bs.length then (ofBigEndian bs : Int)
      else ofBigEndian bs - 256 ^ bs.length := by
  cases bs with
  | nil => exact absurd rfl hne
  | cons b bs =>
      have hupper : 128 ≤ b.toNat ↔ ¬ 2 * ofBigEndian (b :: bs) < 256 ^ (b :: bs).length := by
        rw [upper_half_iff b bs, not_lt]
      rw [value, modulus_eq]
      simp only [hupper, ite_not]

/-- So many bytes denote only integers of their signed range. -/
theorem fits_value {bs : Bytes} (hne : bs ≠ []) : fits bs.length (value bs) = true := by
  have hlt := ofBigEndian_lt bs
  rw [fits_iff_two_mul (List.length_pos_iff.2 hne), value_eq hne]
  zify at hlt ⊢
  split_ifs <;> omega

@[simp] theorem length_fixed (width : Nat) (z : Int) : (fixed width z).length = width := by
  simp [fixed]

/-- An integer that fits is read back from its bytes. -/
theorem value_fixed {width : Nat} (hwidth : 0 < width) {z : Int} (hz : fits width z = true) :
    value (fixed width z) = z := by
  rw [fits_iff_two_mul hwidth] at hz
  have hpos : (0 : Int) < 256 ^ width := by positivity
  have hresidue : z % 256 ^ width = if 0 ≤ z then z else z + 256 ^ width := by
    split_ifs with hsign
    · exact Int.emod_eq_of_lt hsign (by omega)
    · rw [← Int.add_emod_right, Int.emod_eq_of_lt (by omega) (by omega)]
  have hspelt : (ofBigEndian (fixed width z) : Int) = if 0 ≤ z then z else z + 256 ^ width := by
    rw [fixed, modulus_eq, hresidue, ofBigEndian_bigEndian]
    · split_ifs <;> omega
    · zify
      split_ifs <;> omega
  have hne : fixed width z ≠ [] := by
    intro hnil
    have hlength := length_fixed width z
    rw [hnil, List.length_nil] at hlength
    omega
  rw [value_eq hne, length_fixed]
  zify
  rw [hspelt]
  split_ifs <;> omega

/-- Bytes are those of the integer that they denote. -/
theorem fixed_value {bs : Bytes} (hne : bs ≠ []) : fixed bs.length (value bs) = bs := by
  have hlt := ofBigEndian_lt bs
  have hresidue : value bs % 256 ^ bs.length = ofBigEndian bs := by
    zify at hlt
    rw [value_eq hne]
    split_ifs
    · exact Int.emod_eq_of_lt (by omega) hlt
    · rw [Int.sub_emod_right, Int.emod_eq_of_lt (by omega) hlt]
  rw [fixed, modulus_eq, hresidue, Int.toNat_natCast, bigEndian_ofBigEndian]

/-- Integers that fit are told apart by their bytes. -/
theorem fixed_injective {width : Nat} (hwidth : 0 < width) {z z' : Int} (hz : fits width z = true)
    (hz' : fits width z' = true) (h : fixed width z = fixed width z') : z = z' := by
  rw [← value_fixed hwidth hz, h, value_fixed hwidth hz']

/-- A byte in front that only repeats the sign changes nothing. -/
theorem value_cons_of_padding {b b' : UInt8} {bs : Bytes}
    (h : b = 0 ∧ b'.toNat < 128 ∨ b = 0xFF ∧ 128 ≤ b'.toNat) :
    value (b :: b' :: bs) = value (b' :: bs) := by
  have hhalf := upper_half_iff b' bs
  have hfront := ofBigEndian_cons b (b' :: bs)
  have hmodulus : 256 ^ (b :: b' :: bs).length = 256 * 256 ^ (b' :: bs).length := pow_succ' _ _
  rw [value_eq (List.cons_ne_nil _ _), value_eq (List.cons_ne_nil _ _)]
  zify at hhalf hfront hmodulus ⊢
  rw [hfront, hmodulus]
  have hpos : (0 : Int) < 256 ^ (b' :: bs).length := by positivity
  generalize (256 : Int) ^ (b' :: bs).length = weight at *
  rcases h with ⟨rfl, hb'⟩ | ⟨rfl, hb'⟩
  · have hzero : ((0 : UInt8).toNat : Int) = 0 := rfl
    rw [hzero]
    split_ifs <;> omega
  · have hfull : ((0xFF : UInt8).toNat : Int) = 255 := rfl
    rw [hfull]
    split_ifs <;> omega

/-! ### The fewest bytes -/

/-- The bytes denote the integer, and no fewer bytes do. -/
structure Shortest (z : Int) (bs : Bytes) : Prop where
  denotes : value bs = z
  nonempty : bs ≠ []
  fewest : ∀ bs', bs' ≠ [] → value bs' = z → bs.length ≤ bs'.length

theorem width_pos (z : Int) : 0 < width z := by
  simp only [width]
  split_ifs <;> omega

theorem fits_iff_width_le {bytes : Nat} (hbytes : 0 < bytes) {z : Int} :
    fits bytes z = true ↔ width z ≤ bytes := by
  rw [fits_iff, width]
  generalize hm : (if z < 0 then z.natAbs - 1 else z.natAbs) = magnitude
  have hrange : -(2 ^ (8 * bytes - 1) : Int) ≤ z ∧ z < 2 ^ (8 * bytes - 1) ↔
      magnitude < 2 ^ (8 * bytes - 1) := by
    zify
    split_ifs at hm <;> omega
  rw [hrange]
  by_cases hzero : magnitude = 0
  · simp [hzero, Nat.one_le_iff_ne_zero, hbytes.ne']
  · simp only [if_neg hzero]
    rw [← Nat.log2_lt hzero]
    omega

theorem minimal_shortest (z : Int) : Shortest z (minimal z) := by
  have hfits : fits (width z) z = true := (fits_iff_width_le (width_pos z)).2 le_rfl
  have hlength : (minimal z).length = width z := length_fixed _ _
  refine ⟨value_fixed (width_pos z) hfits, ?_, ?_⟩
  · exact List.length_pos_iff.1 (hlength ▸ width_pos z)
  · rintro bs hne rfl
    rw [hlength]
    exact (fits_iff_width_le (List.length_pos_iff.2 hne)).1 (fits_value hne)

/-- There is one way to spell an integer in the fewest bytes. -/
theorem shortest_iff {z : Int} {bs : Bytes} : Shortest z bs ↔ bs = minimal z := by
  refine ⟨fun h => ?_, fun h => h ▸ minimal_shortest z⟩
  have hminimal := minimal_shortest z
  have hlength : bs.length = width z := by
    rw [← length_fixed (width z) z]
    exact le_antisymm (h.fewest _ hminimal.nonempty hminimal.denotes)
      (hminimal.fewest _ h.nonempty h.denotes)
  rw [← fixed_value h.nonempty, hlength, h.denotes]
  rfl

/-- The first of the fewest bytes says more than the sign. -/
theorem Shortest.not_padded {z : Int} {b b' : UInt8} {bs : Bytes} (h : Shortest z (b :: b' :: bs)) :
    ¬ (b = 0 ∧ b'.toNat < 128 ∨ b = 0xFF ∧ 128 ≤ b'.toNat) := by
  intro hpadding
  have hdenotes := h.denotes
  rw [value_cons_of_padding hpadding] at hdenotes
  have hle := h.fewest (b' :: bs) (List.cons_ne_nil _ _) hdenotes
  exact absurd hle (by simp)

end TokenScan.Number.TwosComplement
