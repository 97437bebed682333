/-
Module: TokenScan.Proofs.SignMagnitude
Purpose: Two's complement by sign and magnitude. The bytes of the magnitude get a zero byte in front
  when the first of them would be taken for the sign; those of a negative integer are complemented
  and one is added, the carry running up from the last byte. Only the least integer of a length needs
  no byte for its sign where the magnitude is as great as half of the spellings. What comes out is
  the integer in the fewest bytes.
Main exports: TwosComplement.magnitude, TwosComplement.complement, TwosComplement.needsSignByte,
  TwosComplement.ofSignMagnitude, TwosComplement.value_ofSignMagnitude,
  TwosComplement.ofSignMagnitude_eq
-/
import TokenScan.Proofs.SignedBytes

namespace TokenScan.Number.TwosComplement

/-! ### The bytes of a magnitude -/

/-- The bytes of a number, most significant first, without zeros in front; zero is one byte. -/
def magnitude (n : Nat) : Bytes :=
  if n < 256 then [UInt8.ofNat n] else magnitude (n / 256) ++ [UInt8.ofNat n]

theorem ofBigEndian_concat (bs : Bytes) (b : UInt8) :
    ofBigEndian (bs ++ [b]) = 256 * ofBigEndian bs + b.toNat := by
  simp [ofBigEndian]

/-- The bytes of a magnitude spell it, and fewer bytes would not, but for one byte. -/
theorem magnitude_spells (n : Nat) : magnitude n ≠ [] ∧ ofBigEndian (magnitude n) = n ∧
    ((magnitude n).length = 1 ∨ 256 ^ ((magnitude n).length - 1) ≤ n) := by
  induction n using magnitude.induct with
  | case1 n hsmall =>
      rw [magnitude, if_pos hsmall]
      refine ⟨List.cons_ne_nil _ _, ?_, .inl rfl⟩
      simp [ofBigEndian, Nat.mod_eq_of_lt hsmall]
  | case2 n hlarge ih =>
      obtain ⟨hne, hspells, hlength⟩ := ih
      have hpos := List.length_pos_iff.2 hne
      rw [magnitude, if_neg hlarge]
      refine ⟨by simp, ?_, .inr ?_⟩
      · rw [ofBigEndian_concat, hspells, UInt8.toNat_ofNat']
        omega
      · rw [List.length_append, List.length_singleton, Nat.add_sub_cancel]
        rcases hlength with hone | hle
        · rw [hone]
          omega
        · calc 256 ^ (magnitude (n / 256)).length
              = 256 ^ ((magnitude (n / 256)).length - 1) * 256 := by
                rw [← Nat.pow_succ, Nat.succ_eq_add_one, Nat.sub_add_cancel hpos]
            _ ≤ n / 256 * 256 := Nat.mul_le_mul_right 256 hle
            _ ≤ n := Nat.div_mul_le_self n 256

/-! ### Complement and carry -/

/-- The bytes, least significant first, complemented, with one added as long as there is a carry. -/
def complement : Bool → Bytes → Bytes
  | _, [] => []
  | carry, b :: bs =>
    let low := if carry then ~~~b + 1 else ~~~b
    low :: complement (carry && low = 0) bs

@[simp] theorem length_complement (carry : Bool) (bs : Bytes) :
    (complement carry bs).length = bs.length := by
  induction bs generalizing carry with
  | nil => rfl
  | cons b bs ih => simp [complement, ih]

theorem ofLittleEndian_cons (b : UInt8) (bs : Bytes) :
    ofLittleEndian (b :: bs) = b.toNat + 256 * ofLittleEndian bs := rfl

/-- Without a carry a number and its complement add up to all ones. -/
theorem ofLittleEndian_complement_false (bs : Bytes) :
    ofLittleEndian (complement false bs) + ofLittleEndian bs + 1 = 256 ^ bs.length := by
  induction bs with
  | nil => rfl
  | cons b bs ih =>
      have hb : b.toNat < 256 := b.toNat_lt
      have hlow : (~~~b).toNat = 255 - b.toNat := by simp
      simp only [complement, Bool.false_eq_true, if_false, Bool.false_and, ofLittleEndian_cons, hlow,
        List.length_cons, pow_succ]
      omega

/-- With the one added, a number other than zero and its complement add up to a power of two. -/
theorem ofLittleEndian_complement_true {bs : Bytes} (hpos : 0 < ofLittleEndian bs) :
    ofLittleEndian (complement true bs) + ofLittleEndian bs = 256 ^ bs.length := by
  induction bs with
  | nil => simp [ofLittleEndian] at hpos
  | cons b bs ih =>
      rw [ofLittleEndian_cons] at hpos
      by_cases hzero : b = 0
      · -- The carry runs on.
        subst hzero
        have hrest := ih (by simpa using hpos)
        have hlow : ~~~(0 : UInt8) + 1 = 0 := by decide
        simp only [complement, if_true, hlow, decide_true, Bool.and_true, ofLittleEndian_cons,
          UInt8.toNat_zero, List.length_cons, pow_succ]
        omega
      · have hb : b.toNat < 256 := b.toNat_lt
        have hbpos : 0 < b.toNat := by
          rw [Nat.pos_iff_ne_zero]
          exact fun h => hzero (UInt8.toNat_inj.1 h)
        have hlow : (~~~b + 1).toNat = 256 - b.toNat := by
          rw [UInt8.toNat_add, UInt8.toNat_not]
          simp
          omega
        have hstops : ~~~b + 1 ≠ 0 := by
          intro h
          rw [h, UInt8.toNat_zero] at hlow
          omega
        have hrest := ofLittleEndian_complement_false bs
        simp only [complement, if_true, hstops, decide_false, Bool.and_false, ofLittleEndian_cons,
          hlow, List.length_cons, pow_succ]
        omega

/-- The bytes of the negative of a number. -/
def negated (bs : Bytes) : Bytes :=
  (complement true bs.reverse).reverse

@[simp] theorem length_negated (bs : Bytes) : (negated bs).length = bs.length := by
  simp [negated]

theorem ofBigEndian_negated {bs : Bytes} (hpos : 0 < ofBigEndian bs) :
    ofBigEndian (negated bs) + ofBigEndian bs = 256 ^ bs.length := by
  have hreverse := ofBigEndian_reverse bs.reverse
  rw [List.reverse_reverse] at hreverse
  rw [hreverse] at hpos ⊢
  rw [negated, ofBigEndian_reverse, ofLittleEndian_complement_true hpos, List.length_reverse]

/-! ### The sign byte -/

/-- The first byte of the magnitude would be taken for the other sign. The least integer of a length is
    the exception: its magnitude is its own complement. -/
def needsSignByte (negative : Bool) : Bytes → Bool
  | [] => false
  | b :: bs => 0x7F < b && !(b = 0x80 && bs.all (· = 0) && negative)

theorem ofBigEndian_eq_zero_iff {bs : Bytes} : ofBigEndian bs = 0 ↔ bs.all (· = 0) = true := by
  induction bs with
  | nil => exact iff_of_true rfl rfl
  | cons b bs ih =>
      have hb : b.toNat = 0 ↔ b = 0 := by rw [← UInt8.toNat_inj]; rfl
      simp [ofBigEndian_cons, ih, hb]

/-- The least integer of a length is half of the spellings. -/
theorem half_iff (b : UInt8) (bs : Bytes) :
    2 * ofBigEndian (b :: bs) = 256 ^ (b :: bs).length ↔ b = 0x80 ∧ bs.all (· = 0) = true := by
  have hrest := ofBigEndian_lt bs
  have hb : b = 0x80 ↔ b.toNat = 128 := by rw [← UInt8.toNat_inj]; rfl
  rw [← ofBigEndian_eq_zero_iff, hb, ofBigEndian_cons, List.length_cons, pow_succ]
  generalize 256 ^ bs.length = weight at *
  constructor
  · intro hhalf
    have hfirst : b.toNat = 128 := by
      rcases Nat.lt_trichotomy b.toNat 128 with hlt | heq | hgt
      · nlinarith [Nat.mul_le_mul_right weight (Nat.succ_le_of_lt hlt)]
      · exact heq
      · nlinarith [Nat.mul_le_mul_right weight (Nat.succ_le_of_lt hgt)]
    rw [hfirst] at hhalf
    exact ⟨hfirst, by omega⟩
  · rintro ⟨hfirst, hzero⟩
    rw [hfirst, hzero]
    omega

/-- A byte for the sign is needed where half of the spellings are not enough. -/
theorem needsSignByte_iff {bs : Bytes} (hne : bs ≠ []) (negative : Bool) :
    needsSignByte negative bs = true ↔ 256 ^ bs.length ≤ 2 * ofBigEndian bs ∧
      ¬ (negative = true ∧ 2 * ofBigEndian bs = 256 ^ bs.length) := by
  obtain ⟨b, bs, rfl⟩ := List.exists_cons_of_ne_nil hne
  have hfirst : 0x7F < b ↔ 128 ≤ b.toNat := UInt8.lt_iff_toNat_lt
  rw [← upper_half_iff, half_iff, ← hfirst]
  simp only [needsSignByte, Bool.and_eq_true, Bool.not_eq_true', Bool.and_eq_false_iff,
    decide_eq_true_eq, decide_eq_false_iff_not]
  grind

/-! ### Integers -/

/-- The bytes of the magnitude, with a byte for the sign if it needs one. -/
def withSignByte (z : Int) : Bytes :=
  if needsSignByte (z < 0) (magnitude z.natAbs) then 0 :: magnitude z.natAbs
  else magnitude z.natAbs

/-- The two's complement of an integer, worked out from its sign and its magnitude. -/
def ofSignMagnitude (z : Int) : Bytes :=
  if z < 0 then negated (withSignByte z) else withSignByte z

theorem ofBigEndian_withSignByte (z : Int) : ofBigEndian (withSignByte z) = z.natAbs := by
  have hspells := (magnitude_spells z.natAbs).2.1
  rw [withSignByte]
  split_ifs
  · rw [ofBigEndian_cons, hspells]
    simp
  · exact hspells

@[simp] theorem length_ofSignMagnitude (z : Int) :
    (ofSignMagnitude z).length = (withSignByte z).length := by
  rw [ofSignMagnitude]
  split_ifs <;> simp

/-- In terms of the magnitude: that of a negative integer may be half of the spellings, any other is
    less. -/
theorem fits_iff_natAbs {bytes : Nat} (hbytes : 0 < bytes) {z : Int} :
    fits bytes z = true ↔ 2 * z.natAbs < 256 ^ bytes ∨ z < 0 ∧ 2 * z.natAbs = 256 ^ bytes := by
  have hcast : (256 : Int) ^ bytes = ((256 ^ bytes : Nat) : Int) := by push_cast; rfl
  rw [fits_iff_two_mul hbytes, hcast]
  generalize 256 ^ bytes = weight
  omega

/-- A byte for the sign is needed exactly where the bytes of the magnitude are too few. -/
theorem needsSignByte_magnitude (z : Int) :
    needsSignByte (z < 0) (magnitude z.natAbs) = !fits (magnitude z.natAbs).length z := by
  obtain ⟨hne, hspells, -⟩ := magnitude_spells z.natAbs
  rw [Bool.eq_iff_iff, needsSignByte_iff hne, Bool.not_eq_true', ← Bool.not_eq_true,
    fits_iff_natAbs (List.length_pos_iff.2 hne), hspells, decide_eq_true_eq]
  omega

/-- With its sign byte an integer has as many bytes as it needs, and no more. -/
theorem length_withSignByte (z : Int) : (withSignByte z).length = width z := by
  obtain ⟨hne, hspells, hlength⟩ := magnitude_spells z.natAbs
  have hpos := List.length_pos_iff.2 hne
  have hlt := ofBigEndian_lt (magnitude z.natAbs)
  rw [hspells] at hlt
  have hbytes : (withSignByte z).length = if fits (magnitude z.natAbs).length z then
      (magnitude z.natAbs).length else (magnitude z.natAbs).length + 1 := by
    rw [withSignByte, needsSignByte_magnitude]
    cases fits (magnitude z.natAbs).length z <;> rfl
  rw [hbytes]
  generalize (magnitude z.natAbs).length = bytes at *
  split_ifs with hfits
  · -- One byte less would be less than the magnitude itself takes.
    have hle := (fits_iff_width_le hpos).1 hfits
    have hge : bytes = 1 ∨ ¬ width z ≤ bytes - 1 := by
      refine hlength.imp_right fun hmagnitude hfewer => ?_
      have hfewer' := (fits_iff_width_le ((width_pos z).trans_le hfewer)).2 hfewer
      rw [fits_iff_natAbs ((width_pos z).trans_le hfewer)] at hfewer'
      omega
    have hwidth := width_pos z
    omega
  · have hmore : fits (bytes + 1) z = true := by
      rw [fits_iff_natAbs bytes.succ_pos, pow_succ]
      omega
    rw [fits_iff_width_le hpos] at hfits
    rw [fits_iff_width_le bytes.succ_pos] at hmore
    omega

/-- The bytes worked out from sign and magnitude denote the integer. -/
theorem value_ofSignMagnitude (z : Int) : value (ofSignMagnitude z) = z := by
  have hspelt := ofBigEndian_withSignByte z
  have hpos : 0 < (withSignByte z).length := length_withSignByte z ▸ width_pos z
  have hne : ofSignMagnitude z ≠ [] := by
    rwa [← List.length_pos_iff, length_ofSignMagnitude]
  have hfits : fits (withSignByte z).length z = true := by
    rw [fits_iff_width_le hpos, length_withSignByte]
  rw [fits_iff_natAbs hpos] at hfits
  rw [value_eq hne, length_ofSignMagnitude, ofSignMagnitude]
  have hcast (bytes : Nat) : (256 : Int) ^ bytes = ((256 ^ bytes : Nat) : Int) := by
    push_cast; rfl
  rw [hcast]
  by_cases hsign : z < 0
  · have hnegated := ofBigEndian_negated (hspelt ▸ Int.natAbs_pos.2 hsign.ne)
    rw [hspelt] at hnegated
    rw [if_pos hsign, if_neg (by omega)]
    omega
  · rw [if_neg hsign, hspelt, if_pos (by omega)]
    omega

/-- Sign and magnitude give the integer in the fewest bytes. -/
theorem ofSignMagnitude_eq (z : Int) : ofSignMagnitude z = minimal z := by
  have hlength : (ofSignMagnitude z).length = width z := by
    rw [length_ofSignMagnitude, length_withSignByte]
  have hne : ofSignMagnitude z ≠ [] := List.length_pos_iff.1 (hlength ▸ width_pos z)
  rw [← fixed_value hne, hlength, value_ofSignMagnitude]
  rfl

end TokenScan.Number.TwosComplement
