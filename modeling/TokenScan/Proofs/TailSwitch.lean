/-
Module: TokenScan.Proofs.TailSwitch
Purpose: The hash is the textbook algorithm with signed bytes in the tail. The loop takes in the same
  words block by block; a fall through the cases of the switch collects each byte of the tail at its
  place, which is what the lanes of the tail collect from their low end; and signed bytes below 0x80
  are unsigned ones, whose lanes are words padded with zeros.
Main exports: Textbook.wordAt_eq, Murmur.Agrees, Murmur.agrees_blocks, Textbook.fallThrough_tailCase,
  Textbook.standardHash_eq, hash_eq_textbook
-/
import Mathlib.Data.List.GetD
import Mathlib.Data.List.Induction
import Mathlib.Tactic.IntervalCases
import TokenScan.Hash.Murmur
import TokenScan.Hash.Textbook

namespace TokenScan.Hash

open TokenScan.Number

namespace Textbook

/-! ### Words -/

theorem toNat_append_byte {width : Nat} (high : BitVec width) (low : BitVec 8) :
    (high ++ low).toNat = low.toNat + 256 * high.toNat := by
  rw [BitVec.toNat_append, ← Nat.shiftLeft_add_eq_or_of_lt low.isLt, Nat.shiftLeft_eq]
  omega

/-- The number in the bytes from a place on, of which the first counts once. -/
theorem ofLittleEndian_drop_succ (data : Bytes) (i n : Nat) :
    ofLittleEndian ((data.drop i).take (n + 1)) =
      (byteAt data i).toNat + 256 * ofLittleEndian ((data.drop (i + 1)).take n) := by
  by_cases hi : i < data.length
  · rw [List.drop_eq_getElem_cons hi, List.take_succ_cons, byteAt, List.getD_eq_getElem _ _ hi]
    rfl
  · have hend : data.length ≤ i := Nat.le_of_not_lt hi
    rw [List.drop_eq_nil_of_le hend, List.drop_eq_nil_of_le (Nat.le_succ_of_le hend), byteAt,
      List.getD_eq_default _ _ hend]
    simp [ofLittleEndian]

/-- A word is the number in its eight bytes, of which some may be missing at the end. -/
theorem wordAt_eq (data : Bytes) (i : Nat) :
    wordAt data i = BitVec.ofNat 64 (ofLittleEndian ((data.drop i).take 8)) := by
  have hword : (wordAt data i).toNat = ofLittleEndian ((data.drop i).take 8) := by
    simp only [ofLittleEndian_drop_succ, List.take_zero]
    rw [wordAt]
    simp only [toNat_append_byte]
    rfl
  apply BitVec.eq_of_toNat_eq
  rw [BitVec.toNat_ofNat, ← hword, Nat.mod_eq_of_lt (wordAt data i).isLt]

end Textbook

namespace Murmur

open Textbook (Registers)

/-! ### The loop over the blocks -/

/-- The halves are the same in both. -/
structure Agrees (r : Registers) (s : Lanes) : Prop where
  h1 : r.h1 = s.h1.toBitVec
  h2 : r.h2 = s.h2.toBitVec

theorem toBitVec_word_drop (data : Bytes) (i : Nat) :
    (word (data.drop i)).toBitVec = Textbook.wordAt data i :=
  (Textbook.wordAt_eq data i).symm

variable {r : Registers} {s : Lanes}

theorem Agrees.mix1 (h : Agrees r s) {k : BitVec 64} {k1 : UInt64} (hk : k = k1.toBitVec) :
    Agrees (Textbook.mix1 { r with k1 := k }) ⟨s.h1 ^^^ scramble1 k1, s.h2⟩ where
  h1 := by
    rw [Textbook.mix1, hk, h.h1]
    rfl
  h2 := h.h2

theorem Agrees.mix2 (h : Agrees r s) {k : BitVec 64} {k2 : UInt64} (hk : k = k2.toBitVec) :
    Agrees (Textbook.mix2 { r with k2 := k }) ⟨s.h1, s.h2 ^^^ scramble2 k2⟩ where
  h1 := h.h1
  h2 := by
    rw [Textbook.mix2, hk, h.h2]
    rfl

theorem Agrees.stir1 (h : Agrees r s) :
    Agrees { r with h1 := (r.h1.rotateLeft 27 + r.h2) * 5 + 0x52dce729 }
      ⟨(rotateLeft s.h1 27 + s.h2) * 5 + 0x52dce729, s.h2⟩ := by
  refine ⟨?_, h.h2⟩
  simp only [h.h1, h.h2, UInt64.toBitVec_add, UInt64.toBitVec_mul, UInt64.toBitVec_ofNat,
    toBitVec_rotateLeft s.h1 (r := 27) (by decide) (by decide)]
  rfl

theorem Agrees.stir2 (h : Agrees r s) :
    Agrees { r with h2 := (r.h2.rotateLeft 31 + r.h1) * 5 + 0x38495ab5 }
      ⟨s.h1, (rotateLeft s.h2 31 + s.h1) * 5 + 0x38495ab5⟩ := by
  refine ⟨h.h1, ?_⟩
  simp only [h.h1, h.h2, UInt64.toBitVec_add, UInt64.toBitVec_mul, UInt64.toBitVec_ofNat,
    toBitVec_rotateLeft s.h2 (r := 31) (by decide) (by decide)]
  rfl

/-- One pass of the loop takes in the two words of a block. -/
theorem Agrees.block (h : Agrees r s) (data : Bytes) (i : Nat) :
    Agrees (Textbook.block data r i)
      (absorb s (word (data.drop (16 * i))) (word (data.drop (16 * i + 8)))) :=
  ((h.mix1 (toBitVec_word_drop data (16 * i)).symm).stir1.mix2
    (toBitVec_word_drop data (16 * i + 8)).symm).stir2

/-- The whole loop. -/
theorem agrees_blocks (h : Agrees r s) (data : Bytes) (start count : Nat) :
    Agrees ((List.range' start count).foldl (Textbook.block data) r)
      (absorbBlocks count (data.drop (16 * start)) s) := by
  induction count generalizing start r s with
  | zero => exact h
  | succ count ih =>
      rw [List.range'_succ, List.foldl_cons, absorbBlocks_succ]
      have hrest := ih (h.block data start) (start + 1)
      rw [Nat.mul_add] at hrest
      simpa only [List.drop_drop] using hrest

end Murmur

namespace Textbook

/-! ### The switch over the tail -/

/-- The word that a lane collects from its bytes, each read as a word and moved to its place. -/
def laneWord (extend : BitVec 8 → BitVec 64) : Bytes → BitVec 64
  | [] => 0
  | b :: bs => extend b.toBitVec ^^^ (laneWord extend bs <<< 8)

/-- The register of a lane after the cases of so many of its bytes, the last byte first. -/
def collect (tail : Nat → BitVec 64) (first : Nat) : Nat → BitVec 64 → BitVec 64
  | 0, k => k
  | count + 1, k => collect tail first count (k ^^^ tail (first + count) <<< (8 * count))

section Cases

variable (tail : Nat → BitVec 64) (r : Registers) {n : Nat}

theorem tailCase_first (hpos : 0 < n) (hn : n < 8) :
    tailCase tail r (n + 1) = { r with k1 := r.k1 ^^^ tail n <<< (8 * n) } := by
  interval_cases n <;> rfl

theorem tailCase_second (hpos : 0 < n) (hn : n < 7) :
    tailCase tail r (8 + n + 1) = { r with k2 := r.k2 ^^^ tail (8 + n) <<< (8 * n) } := by
  interval_cases n <;> rfl

/-- The fall through the cases of the first lane collects its bytes and mixes them in. -/
theorem fallThrough_first (hn : n < 8) :
    fallThrough (tailCase tail) r (n + 1) =
      mix1 { r with k1 := collect tail 0 (n + 1) r.k1 } := by
  induction n generalizing r with
  | zero => rfl
  | succ n ih =>
      rw [fallThrough, tailCase_first tail r n.succ_pos hn, ih _ (by omega)]
      simp only [collect, Nat.zero_add]

/-- The fall through the cases of the second lane does so too, and goes on to the first lane. -/
theorem fallThrough_second (hn : n < 7) :
    fallThrough (tailCase tail) r (8 + n + 1) =
      fallThrough (tailCase tail) (mix2 { r with k2 := collect tail 8 (n + 1) r.k2 }) 8 := by
  induction n generalizing r with
  | zero =>
      have hcase : tailCase tail r (8 + 0 + 1) =
          mix2 { r with k2 := collect tail 8 (0 + 1) r.k2 } := rfl
      rw [fallThrough, hcase]
  | succ n ih =>
      rw [fallThrough, tailCase_second tail r n.succ_pos hn, ← Nat.add_assoc, ih _ (by omega)]
      simp only [collect]

end Cases

variable {extend : BitVec 8 → BitVec 64}

theorem laneWord_concat (bs : Bytes) (b : UInt8) :
    laneWord extend (bs ++ [b]) = laneWord extend bs ^^^ extend b.toBitVec <<< (8 * bs.length) := by
  induction bs with
  | nil => simp [laneWord]
  | cons c bs ih =>
      rw [List.cons_append, laneWord, ih, BitVec.shiftLeft_xor_distrib, ← BitVec.shiftLeft_add,
        laneWord, BitVec.xor_assoc, List.length_cons, Nat.mul_succ]

/-- The order of the bytes does not matter: from the last to the first the register collects what
    the lane holds. -/
theorem collect_eq {tail : Nat → BitVec 64} {first : Nat} {bs : Bytes}
    (htail : ∀ i (hi : i < bs.length), tail (first + i) = extend bs[i].toBitVec) (k : BitVec 64) :
    collect tail first bs.length k = k ^^^ laneWord extend bs := by
  induction bs using List.reverseRecOn generalizing k with
  | nil => simp [collect, laneWord]
  | append_singleton bs b ih =>
      have hlast : tail (first + bs.length) = extend b.toBitVec := by
        simpa using htail bs.length (by simp)
      have hothers : ∀ i (hi : i < bs.length), tail (first + i) = extend bs[i].toBitVec := by
        intro i hi
        have hbyte := htail i (by simp; omega)
        rwa [List.getElem_append_left hi] at hbyte
      rw [List.length_append, List.length_singleton, collect, ih hothers, hlast, laneWord_concat,
        BitVec.xor_assoc, BitVec.xor_comm (extend _ <<< _)]

/-- What the switch does with a tail: it mixes in the lanes of its bytes. -/
theorem fallThrough_tailCase {tail : Nat → BitVec 64} {bs : Bytes} (hlength : bs.length < 16)
    (htail : ∀ i (hi : i < bs.length), tail i = extend bs[i].toBitVec) {r : Registers}
    (hk1 : r.k1 = 0#64) (hk2 : r.k2 = 0#64) :
    fallThrough (tailCase tail) r bs.length =
      mixLanes bs.length (laneWord extend (bs.take 8)) (laneWord extend (bs.drop 8)) r := by
  have hfirst : ∀ i (hi : i < (bs.take 8).length),
      tail (0 + i) = extend (bs.take 8)[i].toBitVec := by
    intro i hi
    rw [List.getElem_take, Nat.zero_add]
    exact htail i (by rw [List.length_take] at hi; omega)
  have hsecond : ∀ i (hi : i < (bs.drop 8).length),
      tail (8 + i) = extend (bs.drop 8)[i].toBitVec := by
    intro i hi
    rw [List.getElem_drop]
    exact htail (8 + i) (by rw [List.length_drop] at hi; omega)
  replace hfirst := collect_eq hfirst 0#64
  replace hsecond := collect_eq hsecond 0#64
  rw [BitVec.zero_xor] at hfirst hsecond
  rw [List.length_take] at hfirst
  rw [List.length_drop] at hsecond
  unfold mixLanes
  by_cases hempty : bs.length = 0
  · rw [hempty]
    rfl
  · by_cases hlong : 8 < bs.length
    · obtain ⟨n, hn⟩ : ∃ n, bs.length = 8 + n + 1 := ⟨bs.length - 9, by omega⟩
      have hcount : bs.length - 8 = n + 1 := by omega
      rw [hcount] at hsecond
      rw [Nat.min_eq_left hlong.le] at hfirst
      rw [if_pos hlong, if_pos (Nat.pos_of_ne_zero hempty), hn, fallThrough_second tail r (by omega),
        hk2, hsecond, fallThrough_first tail _ (by omega)]
      rw [← hfirst, ← hk1]
      rfl
    · obtain ⟨n, hn⟩ : ∃ n, bs.length = n + 1 := ⟨bs.length - 1, by omega⟩
      rw [Nat.min_eq_right (by omega), hn] at hfirst
      rw [if_neg hlong, if_pos (Nat.pos_of_ne_zero hempty), hn, fallThrough_first tail r (by omega),
        hk1, hfirst]

/-! ### Unsigned bytes -/

/-- The places of unsigned bytes do not overlap: a lane is their little-endian number. -/
theorem laneWord_setWidth (bs : Bytes) :
    laneWord (BitVec.setWidth 64) bs = BitVec.ofNat 64 (ofLittleEndian bs) := by
  induction bs with
  | nil => rfl
  | cons b bs ih =>
      have hvalue : ofLittleEndian (b :: bs) = 2 ^ 8 * ofLittleEndian bs + b.toNat :=
        Nat.add_comm _ _
      apply BitVec.eq_of_getLsbD_eq
      intro i hi
      rw [laneWord, ih, hvalue, BitVec.getLsbD_xor, BitVec.getLsbD_setWidth,
        BitVec.getLsbD_shiftLeft, BitVec.getLsbD_ofNat, BitVec.getLsbD_ofNat,
        Nat.testBit_two_pow_mul_add _ b.toNat_lt]
      by_cases hlow : i < 8
      · simp only [hi, hlow, decide_true, if_true, Bool.not_true, Bool.true_and, Bool.and_false,
          Bool.false_and, Bool.xor_false]
        rfl
      · have hhigh : b.toBitVec.getLsbD i = false := BitVec.getLsbD_of_ge _ _ (Nat.le_of_not_lt hlow)
        have hplace : i - 8 < 64 := by omega
        simp [hi, hlow, hhigh, hplace]

theorem wordAt_append_zeros (tail : Bytes) (count i : Nat) :
    wordAt (tail ++ List.replicate count 0) i = wordAt tail i := by
  have hbyte : ∀ j, byteAt (tail ++ List.replicate count 0) j = byteAt tail j := by
    intro j
    by_cases hj : j < tail.length
    · rw [byteAt, byteAt, List.getD_append _ _ _ _ hj]
    · have hend := Nat.le_of_not_lt hj
      have hzero : (List.replicate count (0 : UInt8)).getD (j - tail.length) 0 = 0 := by
        rw [List.getD_eq_getElem?_getD, List.getElem?_replicate]
        split <;> rfl
      rw [byteAt, byteAt, List.getD_append_right _ _ _ _ hend, List.getD_eq_default _ _ hend, hzero]
  simp only [wordAt, hbyte]

variable (data : Bytes) (seed : BitVec 64)

theorem length_tail : (data.drop (16 * (data.length / 16))).length = data.length % 16 := by
  rw [List.length_drop]
  omega

/-- The switch mixes in the lanes of the tail. -/
theorem hash_eq (extend : BitVec 8 → BitVec 64) :
    let tail := data.drop (16 * (data.length / 16))
    let r := { afterBlocks data seed with k1 := 0, k2 := 0 }
    hash extend data seed = finish data.length
      (mixLanes tail.length (laneWord extend (tail.take 8)) (laneWord extend (tail.drop 8)) r) := by
  intro tail r
  have hlength : tail.length = data.length % 16 := length_tail data
  have htail : ∀ i (hi : i < tail.length),
      extend (byteAt data (16 * (data.length / 16) + i)) = extend tail[i].toBitVec := by
    intro i hi
    have hbyte : 16 * (data.length / 16) + i < data.length := by omega
    rw [byteAt, List.getD_eq_getElem _ _ hbyte, List.getElem_drop]
  have hswitch := fallThrough_tailCase (by omega) htail (r := r) rfl rfl
  rw [← hswitch, hlength]
  rfl

/-- With unsigned bytes the lanes of the tail are words padded with zeros. -/
theorem standardHash_eq : standardHash data seed = hash (BitVec.setWidth 64) data seed := by
  have hshort : (data.drop (16 * (data.length / 16))).length < 16 := by
    rw [length_tail]
    exact Nat.mod_lt _ (by decide)
  rw [hash_eq, standardHash, wordAt_append_zeros, wordAt_append_zeros]
  simp only [wordAt_eq, laneWord_setWidth]
  generalize data.drop (16 * (data.length / 16)) = tail at hshort
  have hsecond : (tail.drop 8).take 8 = tail.drop 8 :=
    List.take_of_length_le (by rw [List.length_drop]; omega)
  rw [List.drop_zero, hsecond]

end Textbook

namespace Murmur

/-! ### The hash -/

open Textbook (Registers)

variable {r : Registers} {s : Lanes}

theorem toBitVec_tailLane (bs : Bytes) :
    (tailLane bs).toBitVec = Textbook.laneWord (BitVec.signExtend 64) bs := by
  induction bs with
  | nil => rfl
  | cons b bs ih => rw [toBitVec_tailLane_cons, ih, Textbook.laneWord]

/-- Mixing in the lanes of a tail is taking in the tail. -/
theorem Agrees.tail (h : Agrees r s) (bs : Bytes) :
    Agrees (Textbook.mixLanes bs.length (Textbook.laneWord (BitVec.signExtend 64) (bs.take 8))
      (Textbook.laneWord (BitVec.signExtend 64) (bs.drop 8)) r) (absorbTail bs s) := by
  rw [← toBitVec_tailLane, ← toBitVec_tailLane, Textbook.mixLanes, absorbTail]
  by_cases hempty : bs = []
  · rw [hempty]
    exact h
  · have hpos : 0 < bs.length := List.length_pos_iff.2 hempty
    by_cases hlong : 8 < bs.length
    · rw [if_pos hlong, if_pos hpos, if_neg hempty, if_neg (Nat.not_le.2 hlong)]
      exact (h.mix2 rfl).mix1 rfl
    · rw [if_neg hlong, if_pos hpos, if_neg hempty, if_pos (Nat.le_of_not_lt hlong)]
      exact h.mix1 rfl

theorem toBitVec_avalanche (k : UInt64) : (avalanche k).toBitVec = Textbook.fmix k.toBitVec := rfl

theorem Agrees.finish (h : Agrees r s) (length : Nat) :
    Textbook.finish length r =
      ((Murmur.finish length s).h1.toBitVec, (Murmur.finish length s).h2.toBitVec) := by
  simp only [Textbook.finish, Murmur.finish, h.h1, h.h2, UInt64.toBitVec_add, UInt64.toBitVec_xor,
    toBitVec_avalanche, UInt64.toBitVec_ofNat']

theorem agrees_afterBlocks (key : Bytes) (seed : UInt64) :
    Agrees { Textbook.afterBlocks key seed.toBitVec with k1 := 0, k2 := 0 }
      (absorbBlocks (key.length / 16) key ⟨seed, seed⟩) := by
  have hseed : Agrees ⟨seed.toBitVec, seed.toBitVec, 0, 0⟩ ⟨seed, seed⟩ := ⟨rfl, rfl⟩
  have hblocks := agrees_blocks hseed key 0 (key.length / 16)
  rw [← List.range_eq_range'] at hblocks
  exact ⟨hblocks.h1, hblocks.h2⟩

end Murmur

namespace Textbook

/-- Bytes below 0x80 are the same words with and without a sign. -/
theorem laneWord_signExtend {bs : Bytes} (hbs : ∀ b ∈ bs, b < 0x80) :
    laneWord (BitVec.signExtend 64) bs = laneWord (BitVec.setWidth 64) bs := by
  induction bs with
  | nil => rfl
  | cons b bs ih =>
      have hb : b.toNat < 0x80 := UInt8.lt_iff_toNat_lt.1 (hbs b List.mem_cons_self)
      have hsign : b.toBitVec.msb = false := by
        rw [BitVec.msb_eq_false_iff_two_mul_lt]
        show 2 * b.toNat < 2 ^ 8
        omega
      rw [laneWord, laneWord, BitVec.signExtend_eq_setWidth_of_msb_false hsign,
        ih fun c hc => hbs c (List.mem_cons_of_mem b hc)]

/-- The halves as signed numbers. -/
def signed (halves : BitVec 64 × BitVec 64) : Int64 × Int64 :=
  (Int64.ofBitVec halves.1, Int64.ofBitVec halves.2)

end Textbook

/-- The hash of a key is the textbook algorithm with the bytes of the tail read as signed. The
    standard one reads them as unsigned, which is to say that its tail lanes are words padded with
    zeros; so when no byte of the tail has its high bit set, the hash is the standard one. -/
theorem hash_eq_textbook (key : Bytes) (seed : UInt64) :
    Murmur.hash key seed =
      Textbook.signed (Textbook.hash (BitVec.signExtend 64) key seed.toBitVec) ∧
    Textbook.standardHash key seed.toBitVec =
      Textbook.hash (BitVec.setWidth 64) key seed.toBitVec ∧
    ((∀ b ∈ key.drop (16 * (key.length / 16)), b < 0x80) →
      Murmur.hash key seed = Textbook.signed (Textbook.standardHash key seed.toBitVec)) := by
  have hsigned : Murmur.hash key seed =
      Textbook.signed (Textbook.hash (BitVec.signExtend 64) key seed.toBitVec) := by
    have hagrees := (Murmur.agrees_afterBlocks key seed).tail (key.drop (16 * (key.length / 16)))
    rw [Textbook.hash_eq, hagrees.finish]
    rfl
  refine ⟨hsigned, Textbook.standardHash_eq key seed.toBitVec, ?_⟩
  intro hplain
  have hlane : ∀ lane ⊆ key.drop (16 * (key.length / 16)),
      Textbook.laneWord (BitVec.signExtend 64) lane =
        Textbook.laneWord (BitVec.setWidth 64) lane :=
    fun lane hsub => Textbook.laneWord_signExtend fun b hb => hplain b (hsub hb)
  rw [hsigned, Textbook.standardHash_eq, Textbook.hash_eq, Textbook.hash_eq,
    hlane _ (List.take_subset _ _), hlane _ (List.drop_subset _ _)]

/-- A block of high bytes, and a tail that reaches into the second lane with low ones. -/
theorem hash_eq_textbook_of_low_tail :
    let key : Bytes := List.replicate 16 0xFF ++ [0x7F, 0, 1, 2, 3, 4, 5, 6, 7, 0x7F]
    (∀ b ∈ key.drop (16 * (key.length / 16)), b < 0x80) ∧
      Murmur.hash key 42 = Textbook.signed (Textbook.standardHash key 42) := by
  intro key
  have hall : (key.drop (16 * (key.length / 16))).all (· < 0x80) = true := by decide
  have hplain : ∀ b ∈ key.drop (16 * (key.length / 16)), b < 0x80 := fun b hb =>
    of_decide_eq_true (List.all_eq_true.1 hall b hb)
  exact ⟨hplain, (hash_eq_textbook key 42).2.2 hplain⟩

/-- A high byte in the tail makes a difference. -/
example : Murmur.hash [0x80] 0 ≠ Textbook.signed (Textbook.standardHash [0x80] 0) := by
  decide +kernel

end TokenScan.Hash
