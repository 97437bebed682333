/-
Module: TokenScan.Hash.Textbook
Purpose: MurmurHash3 for 64-bit machines with a result of 128 bits, as the algorithm is usually set
  down: a loop over the blocks, a switch over the length of the tail whose cases fall through, and
  the final mix of the halves. How the switch reads a byte as a word is a parameter. In the standard
  algorithm the bytes are unsigned, and its tail lanes are little-endian words padded with zeros.
Main exports: Textbook.hash, Textbook.standardHash
-/
import TokenScan.Text.Utf8

namespace TokenScan.Hash.Textbook

/-- The variables of the algorithm: the halves of the hash, and the words that are mixed into them. -/
structure Registers where
  h1 : BitVec 64
  h2 : BitVec 64
  k1 : BitVec 64
  k2 : BitVec 64
deriving DecidableEq, Repr

def c1 : BitVec 64 := 0x87c37b91114253d5

def c2 : BitVec 64 := 0x4cf5ad432745937f

/-- The byte at a place of the data, and zero past its end. -/
def byteAt (data : Bytes) (i : Nat) : BitVec 8 :=
  (data.getD i 0).toBitVec

/-- The little-endian word of the eight bytes from a place on. -/
def wordAt (data : Bytes) (i : Nat) : BitVec 64 :=
  byteAt data (i + 7) ++ byteAt data (i + 6) ++ byteAt data (i + 5) ++ byteAt data (i + 4) ++
    byteAt data (i + 3) ++ byteAt data (i + 2) ++ byteAt data (i + 1) ++ byteAt data i

/-- Scrambles the first word and mixes it into the first half. -/
def mix1 (r : Registers) : Registers :=
  let k1 := (r.k1 * c1).rotateLeft 31 * c2
  { r with h1 := r.h1 ^^^ k1, k1 := k1 }

/-- Scrambles the second word and mixes it into the second half. -/
def mix2 (r : Registers) : Registers :=
  let k2 := (r.k2 * c2).rotateLeft 33 * c1
  { r with h2 := r.h2 ^^^ k2, k2 := k2 }

/-- The body of the loop, for the block of this number. -/
def block (data : Bytes) (r : Registers) (i : Nat) : Registers :=
  let r := mix1 { r with k1 := wordAt data (16 * i) }
  let r := { r with h1 := (r.h1.rotateLeft 27 + r.h2) * 5 + 0x52dce729 }
  let r := mix2 { r with k2 := wordAt data (16 * i + 8) }
  { r with h2 := (r.h2.rotateLeft 31 + r.h1) * 5 + 0x38495ab5 }

/-- The halves start from the seed, and every whole block goes through the loop. -/
def afterBlocks (data : Bytes) (seed : BitVec 64) : Registers :=
  (List.range (data.length / 16)).foldl (block data) ⟨seed, seed, 0, 0⟩

/-- A switch whose cases fall through: it is entered at a label and goes on to the first case. -/
def fallThrough (run : Registers → Nat → Registers) (r : Registers) : Nat → Registers
  | 0 => r
  | label + 1 => fallThrough run (run r (label + 1)) label

/-- The cases of the switch over the length of the tail, whose bytes are given as words. -/
def tailCase (tail : Nat → BitVec 64) (r : Registers) : Nat → Registers
  | 15 => { r with k2 := r.k2 ^^^ tail 14 <<< 48 }
  | 14 => { r with k2 := r.k2 ^^^ tail 13 <<< 40 }
  | 13 => { r with k2 := r.k2 ^^^ tail 12 <<< 32 }
  | 12 => { r with k2 := r.k2 ^^^ tail 11 <<< 24 }
  | 11 => { r with k2 := r.k2 ^^^ tail 10 <<< 16 }
  | 10 => { r with k2 := r.k2 ^^^ tail 9 <<< 8 }
  | 9 => mix2 { r with k2 := r.k2 ^^^ tail 8 <<< 0 }
  | 8 => { r with k1 := r.k1 ^^^ tail 7 <<< 56 }
  | 7 => { r with k1 := r.k1 ^^^ tail 6 <<< 48 }
  | 6 => { r with k1 := r.k1 ^^^ tail 5 <<< 40 }
  | 5 => { r with k1 := r.k1 ^^^ tail 4 <<< 32 }
  | 4 => { r with k1 := r.k1 ^^^ tail 3 <<< 24 }
  | 3 => { r with k1 := r.k1 ^^^ tail 2 <<< 16 }
  | 2 => { r with k1 := r.k1 ^^^ tail 1 <<< 8 }
  | 1 => mix1 { r with k1 := r.k1 ^^^ tail 0 <<< 0 }
  | _ => r

/-- The final mix of one half. -/
def fmix (k : BitVec 64) : BitVec 64 :=
  let k := k ^^^ (k >>> 33)
  let k := k * 0xff51afd7ed558ccd
  let k := k ^^^ (k >>> 33)
  let k := k * 0xc4ceb9fe1a85ec53
  k ^^^ (k >>> 33)

/-- The final mix: the length goes into both halves, and the halves into each other. -/
def finish (length : Nat) (r : Registers) : BitVec 64 × BitVec 64 :=
  let h1 := r.h1 ^^^ BitVec.ofNat 64 length
  let h2 := r.h2 ^^^ BitVec.ofNat 64 length
  let h1 := h1 + h2
  let h2 := h2 + h1
  let h1 := fmix h1
  let h2 := fmix h2
  let h1 := h1 + h2
  let h2 := h2 + h1
  (h1, h2)

/-- The algorithm, where the bytes of the tail are read as words in the given way. -/
def hash (extend : BitVec 8 → BitVec 64) (data : Bytes) (seed : BitVec 64) :
    BitVec 64 × BitVec 64 :=
  let tail (i : Nat) := extend (byteAt data (16 * (data.length / 16) + i))
  let r := { afterBlocks data seed with k1 := 0, k2 := 0 }
  finish data.length (fallThrough (tailCase tail) r (data.length % 16))

/-- Mixes in the lanes of a tail of this length; a lane without bytes is not mixed in. -/
def mixLanes (length : Nat) (k1 k2 : BitVec 64) (r : Registers) : Registers :=
  let r := if 8 < length then mix2 { r with k2 := k2 } else r
  if 0 < length then mix1 { r with k1 := k1 } else r

/-- The standard algorithm by its tail lanes: the words of the tail when it is padded with zeros to a
    block. -/
def standardHash (data : Bytes) (seed : BitVec 64) : BitVec 64 × BitVec 64 :=
  let tail := data.drop (16 * (data.length / 16))
  let padded := tail ++ List.replicate (16 - tail.length) 0
  let r := { afterBlocks data seed with k1 := 0, k2 := 0 }
  finish data.length (mixLanes tail.length (wordAt padded 0) (wordAt padded 8) r)

end TokenScan.Hash.Textbook
