/-
Module: TokenScan.Hash.Md5
Purpose: The MD5 digest of a byte string: sixteen bytes from a message padded to blocks of
  sixty-four.
Main exports: Md5.digest
-/
import TokenScan.Number.TwosComplement

namespace TokenScan.Hash.Md5

open TokenScan.Number

/-- The four words that the blocks of a message are mixed into. -/
structure Words where
  a : UInt32
  b : UInt32
  c : UInt32
  d : UInt32
deriving DecidableEq, Repr

/-- The words that a digest starts from. -/
def initial : Words := ⟨0x67452301, 0xefcdab89, 0x98badcfe, 0x10325476⟩

/-- The additive constants: the integer part of `2 ^ 32 * |sin i|` for `i` from 1 to 64. -/
def constants : List UInt32 :=
  [0xd76aa478, 0xe8c7b756, 0x242070db, 0xc1bdceee,
   0xf57c0faf, 0x4787c62a, 0xa8304613, 0xfd469501,
   0x698098d8, 0x8b44f7af, 0xffff5bb1, 0x895cd7be,
   0x6b901122, 0xfd987193, 0xa679438e, 0x49b40821,
   0xf61e2562, 0xc040b340, 0x265e5a51, 0xe9b6c7aa,
   0xd62f105d, 0x02441453, 0xd8a1e681, 0xe7d3fbc8,
   0x21e1cde6, 0xc33707d6, 0xf4d50d87, 0x455a14ed,
   0xa9e3e905, 0xfcefa3f8, 0x676f02d9, 0x8d2a4c8a,
   0xfffa3942, 0x8771f681, 0x6d9d6122, 0xfde5380c,
   0xa4beea44, 0x4bdecfa9, 0xf6bb4b60, 0xbebfbc70,
   0x289b7ec6, 0xeaa127fa, 0xd4ef3085, 0x04881d05,
   0xd9d4d039, 0xe6db99e5, 0x1fa27cf8, 0xc4ac5665,
   0xf4292244, 0x432aff97, 0xab9423a7, 0xfc93a039,
   0x655b59c3, 0x8f0ccc92, 0xffeff47d, 0x85845dd1,
   0x6fa87e4f, 0xfe2ce6e0, 0xa3014314, 0x4e0811a1,
   0xf7537e82, 0xbd3af235, 0x2ad7d2bb, 0xeb86d391]

/-- The rotations of the four rounds; each round uses its four in turn. -/
def rotations : List (List UInt32) :=
  [[7, 12, 17, 22], [5, 9, 14, 20], [4, 11, 16, 23], [6, 10, 15, 21]]

/-- Bits that leave at the top come in at the bottom. -/
def rotateLeft (x r : UInt32) : UInt32 :=
  (x <<< r) ||| (x >>> (32 - r))

/-- The mixing function of a round and the place of the message word that a step of it takes. -/
def select (step : Nat) (w : Words) : UInt32 × Nat :=
  match step / 16 with
  | 0 => ((w.b &&& w.c) ||| (~~~w.b &&& w.d), step)
  | 1 => ((w.d &&& w.b) ||| (~~~w.d &&& w.c), (5 * step + 1) % 16)
  | 2 => (w.b ^^^ w.c ^^^ w.d, (3 * step + 5) % 16)
  | _ => (w.c ^^^ (w.b ||| ~~~w.d), 7 * step % 16)

/-- One step: three words move on, and the fourth is mixed with a message word and a constant. -/
def mix (block : List UInt32) (w : Words) (step : Nat) : Words :=
  let (f, place) := select step w
  let sum := f + w.a + constants.getD step 0 + block.getD place 0
  let turn := (rotations.getD (step / 16) []).getD (step % 4) 0
  ⟨w.d, w.b + rotateLeft sum turn, w.b, w.c⟩

/-- The sixty-four steps of a block, added to the words before it. -/
def absorb (w : Words) (block : List UInt32) : Words :=
  let mixed := (List.range 64).foldl (mix block) w
  ⟨w.a + mixed.a, w.b + mixed.b, w.c + mixed.c, w.d + mixed.d⟩

/-- The message, a bit of padding, zeros, and the length in bits in eight bytes. -/
def padded (message : Bytes) : Bytes :=
  message ++ [0x80] ++ List.replicate ((119 - message.length % 64) % 64) 0 ++
    littleEndian 8 (8 * message.length)

/-- The little-endian words of a byte string, four bytes to the word, as many as asked for. -/
def wordsOf : Nat → Bytes → List UInt32
  | 0, _ => []
  | count + 1, bs => UInt32.ofNat (ofLittleEndian (bs.take 4)) :: wordsOf count (bs.drop 4)

/-- Absorbs the given number of blocks of sixty-four bytes. -/
def absorbBlocks : Nat → Bytes → Words → Words
  | 0, _, w => w
  | count + 1, bs, w => absorbBlocks count (bs.drop 64) (absorb w (wordsOf 16 bs))

/-- The digest of a message. -/
def digest (message : Bytes) : Bytes :=
  let bs := padded message
  let w := absorbBlocks (bs.length / 64) bs initial
  [w.a, w.b, w.c, w.d].flatMap fun x => littleEndian 4 x.toNat

/-- A digest has sixteen bytes. -/
@[simp] theorem length_digest (message : Bytes) : (digest message).length = 16 := by
  simp [digest]

end TokenScan.Hash.Md5
