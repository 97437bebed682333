/-
Module: TokenScan.Number.TwosComplement
Purpose: Integers as big-endian two's complement, in a fixed number of bytes and in the fewest
  bytes, with the reader that gives the integer back.
Main exports: littleEndian, bigEndian, ofBigEndian, TwosComplement.fixed, TwosComplement.fits,
  TwosComplement.width, TwosComplement.minimal, TwosComplement.value
-/
import TokenScan.Text.Utf8

namespace TokenScan.Number

/-- The low `width` bytes of a number, least significant first. -/
def littleEndian : Nat → Nat → Bytes
  | 0, _ => []
  | width + 1, n => UInt8.ofNat n :: littleEndian width (n / 256)

/-- The low `width` bytes of a number, most significant first. -/
def bigEndian (width n : Nat) : Bytes :=
  (littleEndian width n).reverse

/-- The number whose bytes are given, least significant first. -/
def ofLittleEndian (bs : Bytes) : Nat :=
  bs.foldr (fun b n => b.toNat + 256 * n) 0

/-- The number whose bytes are given, most significant first. -/
def ofBigEndian (bs : Bytes) : Nat :=
  bs.foldl (fun n b => 256 * n + b.toNat) 0

/-- A number is written in exactly as many bytes as asked for. -/
@[simp] theorem length_littleEndian (width n : Nat) : (littleEndian width n).length = width := by
  induction width generalizing n with
  | zero => rfl
  | succ width ih => simp [littleEndian, ih]

/-- A number is written in exactly as many bytes as asked for. -/
@[simp] theorem length_bigEndian (width n : Nat) : (bigEndian width n).length = width := by
  simp [bigEndian]

namespace TwosComplement

/-- The integer lies in the signed range of `width` bytes. -/
def fits (width : Nat) (z : Int) : Bool :=
  let half : Nat := 1 <<< (8 * width - 1)
  z < half && -half ≤ z

/-- The two's complement of an integer in `width` bytes. -/
def fixed (width : Nat) (z : Int) : Bytes :=
  bigEndian width (z % (1 <<< (8 * width) : Nat)).toNat

/-- The fewest bytes whose signed range holds the integer: as many bits as its magnitude needs,
    counted for `-z - 1` when it is negative, and one bit for the sign. -/
def width (z : Int) : Nat :=
  let magnitude := if z < 0 then z.natAbs - 1 else z.natAbs
  if magnitude = 0 then 1 else (magnitude.log2 + 1) / 8 + 1

/-- The two's complement of an integer in the fewest bytes; zero takes one. -/
def minimal (z : Int) : Bytes :=
  fixed (width z) z

/-- The integer that a byte string denotes in two's complement; the empty string denotes zero. -/
def value (bs : Bytes) : Int :=
  match bs with
  | [] => 0
  | b :: _ => if 128 ≤ b.toNat then ofBigEndian bs - (1 <<< (8 * bs.length) : Nat) else ofBigEndian bs

end TwosComplement

end TokenScan.Number
