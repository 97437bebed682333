/-
Module: TokenScan.Proofs.ByteNumbers
Purpose: Numbers and the bytes that spell them. A number that fits the bytes it is written in is read
  back from them, so different numbers are spelled differently, and so many bytes spell only so many
  numbers.
Main exports: ofBigEndian_bigEndian, bigEndian_ofBigEndian, bigEndian_injective,
  ofLittleEndian_injective, ofBigEndian_cons, ofBigEndian_lt, ofLittleEndian_lt, ofBigEndian_lt_iff,
  upper_half_iff
-/
import Mathlib.Algebra.Group.Nat.Defs
import Mathlib.Tactic.Linarith
import Mathlib.Tactic.Ring
import TokenScan.Number.TwosComplement

namespace TokenScan.Number

/-! ### Reading back -/

/-- The bytes of a number keep as much of it as they have room for. -/
theorem ofLittleEndian_littleEndian (width n : Nat) :
    ofLittleEndian (littleEndian width n) = n % 256 ^ width := by
  induction width generalizing n with
  | zero => simp [littleEndian, ofLittleEndian, Nat.mod_one]
  | succ width ih =>
      have hlow : (UInt8.ofNat n).toNat = n % 256 := UInt8.toNat_ofNat'
      have hhigh : ofLittleEndian (littleEndian width (n / 256)) = n / 256 % 256 ^ width := ih _
      simp only [ofLittleEndian] at hhigh
      simp only [littleEndian, ofLittleEndian, List.foldr_cons]
      rw [hlow, hhigh, Nat.pow_succ', Nat.mod_mul]

theorem ofBigEndian_reverse (bs : Bytes) : ofBigEndian bs.reverse = ofLittleEndian bs := by
  simp only [ofBigEndian, ofLittleEndian, List.foldl_reverse, Nat.add_comm]

/-- A number that fits the bytes it is written in is read back from them. -/
theorem ofBigEndian_bigEndian {width n : Nat} (hn : n < 256 ^ width) :
    ofBigEndian (bigEndian width n) = n := by
  rw [bigEndian, ofBigEndian_reverse, ofLittleEndian_littleEndian, Nat.mod_eq_of_lt hn]

theorem littleEndian_ofLittleEndian (bs : Bytes) :
    littleEndian bs.length (ofLittleEndian bs) = bs := by
  induction bs with
  | nil => rfl
  | cons b bs ih =>
      have hb : b.toNat < 256 := b.toNat_lt
      have hvalue : ofLittleEndian (b :: bs) = b.toNat + 256 * ofLittleEndian bs := rfl
      have hlow : UInt8.ofNat (b.toNat + 256 * ofLittleEndian bs) = b := by
        rw [← UInt8.toNat_inj, UInt8.toNat_ofNat']
        omega
      have hhigh : (b.toNat + 256 * ofLittleEndian bs) / 256 = ofLittleEndian bs := by omega
      rw [List.length_cons, littleEndian, hvalue, hlow, hhigh, ih]

theorem ofLittleEndian_injective {bs cs : Bytes} (hlength : bs.length = cs.length)
    (h : ofLittleEndian bs = ofLittleEndian cs) : bs = cs := by
  rw [← littleEndian_ofLittleEndian bs, hlength, h, littleEndian_ofLittleEndian]

/-- Bytes are those of the number that they spell. -/
theorem bigEndian_ofBigEndian (bs : Bytes) : bigEndian bs.length (ofBigEndian bs) = bs := by
  have hreverse := ofBigEndian_reverse bs.reverse
  rw [List.reverse_reverse] at hreverse
  have hlittle := littleEndian_ofLittleEndian bs.reverse
  rw [List.length_reverse] at hlittle
  rw [bigEndian, hreverse, hlittle, List.reverse_reverse]

theorem bigEndian_injective {width m n : Nat} (hm : m < 256 ^ width) (hn : n < 256 ^ width)
    (h : bigEndian width m = bigEndian width n) : m = n := by
  rw [← ofBigEndian_bigEndian hm, h, ofBigEndian_bigEndian hn]

/-! ### Bounds -/

/-- A byte in front counts once for each number that the bytes after it can spell. -/
theorem ofBigEndian_cons (b : UInt8) (bs : Bytes) :
    ofBigEndian (b :: bs) = b.toNat * 256 ^ bs.length + ofBigEndian bs := by
  -- The fold over `bs` is generalised over the number it starts from.
  have hfold : ∀ (cs : Bytes) (n : Nat),
      cs.foldl (fun n b => 256 * n + b.toNat) n = n * 256 ^ cs.length + ofBigEndian cs := by
    intro cs
    induction cs with
    | nil => simp [ofBigEndian]
    | cons c cs ih =>
        intro n
        have hc := ih c.toNat
        simp only [ofBigEndian, List.foldl_cons, Nat.mul_zero, Nat.zero_add] at hc ⊢
        rw [ih, hc, List.length_cons, pow_succ]
        simp only [ofBigEndian]
        ring
  simpa [ofBigEndian] using hfold bs b.toNat

/-- So many bytes spell only numbers below the matching power of two. -/
theorem ofBigEndian_lt (bs : Bytes) : ofBigEndian bs < 256 ^ bs.length := by
  induction bs with
  | nil => simp [ofBigEndian]
  | cons b bs ih =>
      have hb : b.toNat < 256 := b.toNat_lt
      rw [ofBigEndian_cons, List.length_cons, pow_succ]
      nlinarith [Nat.mul_le_mul_right (256 ^ bs.length) (Nat.le_of_lt_succ hb)]

theorem ofLittleEndian_lt (bs : Bytes) : ofLittleEndian bs < 256 ^ bs.length := by
  rw [← ofBigEndian_reverse, ← List.length_reverse]
  exact ofBigEndian_lt bs.reverse

/-- The first byte tells in which half of the numbers of its length a number lies. -/
theorem upper_half_iff (b : UInt8) (bs : Bytes) :
    128 ≤ b.toNat ↔ 256 ^ (b :: bs).length ≤ 2 * ofBigEndian (b :: bs) := by
  have hrest := ofBigEndian_lt bs
  rw [ofBigEndian_cons, List.length_cons, pow_succ]
  constructor
  · intro hb
    nlinarith [Nat.mul_le_mul_right (256 ^ bs.length) hb]
  · intro hge
    by_contra hb
    nlinarith [Nat.mul_le_mul_right (256 ^ bs.length) (Nat.le_of_lt_succ (not_le.1 hb))]

/-- Byte strings of one length are in the order of the numbers they spell. -/
theorem ofBigEndian_lt_iff {bs cs : Bytes} (h : bs.length = cs.length) :
    ofBigEndian bs < ofBigEndian cs ↔ bs < cs := by
  induction bs generalizing cs with
  | nil =>
      rw [List.eq_nil_of_length_eq_zero h.symm]
      simp
  | cons b bs ih =>
      cases cs with
      | nil => simp at h
      | cons c cs =>
          have hlength : bs.length = cs.length := Nat.succ.inj h
          have hbs := hlength ▸ ofBigEndian_lt bs
          have hcs := ofBigEndian_lt cs
          rw [ofBigEndian_cons, ofBigEndian_cons, List.cons_lt_cons_iff, ← ih hlength,
            UInt8.lt_iff_toNat_lt, ← UInt8.toNat_inj, hlength]
          generalize 256 ^ cs.length = weight at *
          constructor
          · intro hlt
            rcases Nat.lt_trichotomy b.toNat c.toNat with hb | hb | hb
            · exact .inl hb
            · rw [hb] at hlt
              exact .inr ⟨hb, Nat.lt_of_add_lt_add_left hlt⟩
            · nlinarith [Nat.mul_le_mul_right weight (Nat.succ_le_of_lt hb)]
          · rintro (hb | ⟨hb, hlt⟩)
            · nlinarith [Nat.mul_le_mul_right weight (Nat.succ_le_of_lt hb)]
            · rw [hb]
              exact Nat.add_lt_add_left hlt _

end TokenScan.Number
