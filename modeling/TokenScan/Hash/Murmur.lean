/-
Module: TokenScan.Hash.Murmur
Purpose: MurmurHash3 for 64-bit machines with a result of 128 bits, in the variant that rings use:
  the bytes after the last whole block are read as signed and sign-extended before they are shifted.
Main exports: Murmur.hash
-/
import TokenScan.Number.TwosComplement

namespace TokenScan.Hash.Murmur

open TokenScan.Number

/-- The two running halves of the hash. -/
@[ext]
structure Lanes where
  h1 : UInt64
  h2 : UInt64
deriving DecidableEq, Repr

/-- Bits that leave at the top come in at the bottom. -/
def rotateLeft (x r : UInt64) : UInt64 :=
  (x <<< r) ||| (x >>> (64 - r))

theorem toBitVec_rotateLeft (x : UInt64) {r : UInt64} (hpos : 0 < r.toNat) (hlt : r.toNat < 64) :
    (rotateLeft x r).toBitVec = x.toBitVec.rotateLeft r.toNat := by
  have hleft : (r.toBitVec % 64).toNat = r.toNat := Nat.mod_eq_of_lt hlt
  have hsub : (64 - r).toNat = 64 - r.toNat :=
    UInt64.toNat_sub_of_le 64 r (UInt64.le_iff_toNat_le.2 (Nat.le_of_lt hlt))
  have hright : ((64 - r).toBitVec % 64).toNat = 64 - r.toNat := by
    show (64 - r).toNat % 64 = 64 - r.toNat
    rw [hsub, Nat.mod_eq_of_lt (by omega)]
  rw [rotateLeft, UInt64.toBitVec_or, UInt64.toBitVec_shiftLeft, UInt64.toBitVec_shiftRight,
    BitVec.shiftLeft_eq', BitVec.ushiftRight_eq', hleft, hright, BitVec.rotateLeft_def,
    Nat.mod_eq_of_lt hlt]

/-- The first multiplier; it is odd, so multiplying by it loses nothing. -/
def c1 : UInt64 := 0x87c37b91114253d5

/-- The second multiplier, which is odd too. -/
def c2 : UInt64 := 0x4cf5ad432745937f

/-- What a word of the first lane contributes. -/
def scramble1 (k : UInt64) : UInt64 :=
  rotateLeft (k * c1) 31 * c2

/-- What a word of the second lane contributes. -/
def scramble2 (k : UInt64) : UInt64 :=
  rotateLeft (k * c2) 33 * c1

/-- Takes in one block of two words. -/
def absorb (s : Lanes) (k1 k2 : UInt64) : Lanes :=
  let h1 := (rotateLeft (s.h1 ^^^ scramble1 k1) 27 + s.h2) * 5 + 0x52dce729
  let h2 := (rotateLeft (s.h2 ^^^ scramble2 k2) 31 + h1) * 5 + 0x38495ab5
  ⟨h1, h2⟩

/-- The little-endian word of the first eight bytes. -/
def word (bs : Bytes) : UInt64 :=
  UInt64.ofNat (ofLittleEndian (bs.take 8))

/-- Takes in the given number of blocks of sixteen bytes. -/
def absorbBlocks : Nat → Bytes → Lanes → Lanes
  | 0, _, s => s
  | count + 1, bs, s => absorbBlocks count (bs.drop 16) (absorb s (word bs) (word (bs.drop 8)))

/-- The first block comes first. -/
theorem absorbBlocks_succ (count : Nat) (bs : Bytes) (s : Lanes) :
    absorbBlocks (count + 1) bs s =
      absorbBlocks count (bs.drop 16) (absorb s (word bs) (word (bs.drop 8))) :=
  -- As an equation of functions: arguments in place would be compared before anything is unfolded.
  have hfunctions : absorbBlocks (count + 1) = fun bs s =>
      absorbBlocks count (bs.drop 16) (absorb s (word bs) (word (bs.drop 8))) := rfl
  congrFun (congrFun hfunctions bs) s

/-- A byte read as signed, in 64 bits. -/
def signExtend (b : UInt8) : UInt64 :=
  b.toInt8.toInt64.toUInt64

/-- The bytes of a tail lane, least significant first, each sign-extended before it is shifted. -/
def tailLane : Bytes → UInt64
  | [] => 0
  | b :: bs => signExtend b ^^^ (tailLane bs <<< 8)

theorem toBitVec_tailLane_cons (b : UInt8) (bs : Bytes) :
    (tailLane (b :: bs)).toBitVec =
      b.toBitVec.signExtend 64 ^^^ ((tailLane bs).toBitVec <<< 8) :=
  rfl

/-- Takes in the fewer than sixteen bytes after the blocks; a lane without bytes is left alone. -/
def absorbTail (tail : Bytes) (s : Lanes) : Lanes :=
  ⟨if tail = [] then s.h1 else s.h1 ^^^ scramble1 (tailLane (tail.take 8)),
   if tail.length ≤ 8 then s.h2 else s.h2 ^^^ scramble2 (tailLane (tail.drop 8))⟩

/-- The last avalanche of one half. -/
def avalanche (k : UInt64) : UInt64 :=
  let k := (k ^^^ (k >>> 33)) * 0xff51afd7ed558ccd
  let k := (k ^^^ (k >>> 33)) * 0xc4ceb9fe1a85ec53
  k ^^^ (k >>> 33)

/-- Mixes in the length and the halves with each other. -/
def finish (length : Nat) (s : Lanes) : Lanes :=
  let h1 := s.h1 ^^^ UInt64.ofNat length
  let h2 := s.h2 ^^^ UInt64.ofNat length
  let h1 := h1 + h2
  let h2 := h2 + h1
  let h1 := avalanche h1
  let h2 := avalanche h2
  let h1 := h1 + h2
  ⟨h1, h2 + h1⟩

/-- Both halves of the hash of a key, as signed numbers. -/
def hash (key : Bytes) (seed : UInt64) : Int64 × Int64 :=
  let blocks := key.length / 16
  let s := absorbBlocks blocks key ⟨seed, seed⟩
  let s := finish key.length (absorbTail (key.drop (16 * blocks)) s)
  (s.h1.toInt64, s.h2.toInt64)

end TokenScan.Hash.Murmur
