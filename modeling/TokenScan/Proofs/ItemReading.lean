/-
Module: TokenScan.Proofs.ItemReading
Purpose: Reading what was written, for the parts of data items: bytes and numbers of a given width,
  the head of an item with its argument in any of the five forms, and floats in the narrowest width
  that keeps them. A float is read back with its pattern, whichever width was chosen; only of the
  patterns that are not numbers one is left.
Main exports: readNumber_bigEndian, exists_isHead, readItem_of_leaf, quieted, readItem_writeFloat,
  writeFloat_quieted
-/
import TokenScan.Cbor.Reader
import TokenScan.Proofs.ByteNumbers

namespace TokenScan

namespace Binary.Format

/-- A pattern in another format is no greater than that of negative infinity there, unless it is not a
    number. -/
theorem convert_le (source target : Format) {bits : Nat} (hnumber : source.isNaN bits = false) :
    source.convert target bits ≤ target.signBit + target.infinity := by
  have hmagnitude : ∀ negative magnitude, magnitude ≤ target.infinity →
      target.withSign negative magnitude ≤ target.signBit + target.infinity := by
    intro negative magnitude hle
    simp only [withSign]
    split <;> omega
  simp only [convert, hnumber, Bool.false_eq_true, if_false]
  apply hmagnitude
  split
  · exact Nat.le_refl _
  · exact Nat.min_le_right _ _

end Binary.Format

namespace Cbor

open TokenScan.Number
open TokenScan.Binary

/-! ### Bytes and numbers -/

theorem takeBytes_append {front : Bytes} {n : Nat} (hlength : front.length = n) (rest : Bytes) :
    takeBytes n (front ++ rest) = some (front, rest) := by
  subst hlength
  simp [takeBytes]

theorem readNumber_bigEndian {width n : Nat} (hn : n < 256 ^ width) (rest : Bytes) :
    readNumber width (bigEndian width n ++ rest) = some (n, rest) := by
  rw [readNumber, takeBytes_append (length_bigEndian width n), Option.map_some]
  dsimp only
  rw [ofBigEndian_bigEndian hn]

/-! ### Heads -/

/-- A byte and the bytes after it make the head of an item of this kind with this argument. The low
    bits of the byte say where the argument is found, hold it themselves if it is small, and never
    announce an indefinite length. -/
structure IsHead (kind n : Nat) (b : UInt8) (tail : Bytes) : Prop where
  kind_eq : b.toNat / 32 = kind
  definite : b.toNat % 32 ≠ 31
  immediate_iff : b.toNat % 32 < 24 ↔ n < 24
  argument : ∀ rest, readArgument (b.toNat % 32) (tail ++ rest) = some (n, rest)

theorem toNat_headByte {kind low : Nat} (hkind : kind < 8) (hlow : low < 32) :
    (UInt8.ofNat (32 * kind + low)).toNat / 32 = kind ∧
      (UInt8.ofNat (32 * kind + low)).toNat % 32 = low := by
  rw [UInt8.toNat_ofNat']
  omega

/-- An argument in bytes of its own, of the width that the low bits stand for. -/
theorem isHead_of_width {kind n low width : Nat} (hkind : kind < 8) (hlow : 24 ≤ low ∧ low < 28)
    (hwidth : readArgument low = readNumber width) (hlarge : 24 ≤ n) (hn : n < 256 ^ width) :
    IsHead kind n (UInt8.ofNat (32 * kind + low)) (bigEndian width n) := by
  obtain ⟨hhigh, hrest⟩ := toNat_headByte hkind (show low < 32 by omega)
  constructor
  case kind_eq => exact hhigh
  case definite => omega
  case immediate_iff => omega
  case argument =>
    intro rest
    rw [hrest, hwidth, readNumber_bigEndian hn]

/-- Every number of 64 bits has a head. -/
theorem exists_isHead {kind n : Nat} (hkind : kind < 8) (hn : n < 2 ^ 64) :
    ∃ b tail, head kind n = b :: tail ∧ IsHead kind n b tail := by
  unfold head
  split
  · next hsmall =>
      obtain ⟨hhigh, hlow⟩ := toNat_headByte hkind (show n < 32 by omega)
      refine ⟨_, [], rfl, hhigh, by omega, by omega, ?_⟩
      intro rest
      rw [hlow, readArgument, if_pos hsmall, List.nil_append]
  · split
    · exact ⟨_, _, rfl, isHead_of_width hkind (by decide) rfl (by omega) (by omega)⟩
    · split
      · exact ⟨_, _, rfl, isHead_of_width hkind (by decide) rfl (by omega) (by omega)⟩
      · split
        · exact ⟨_, _, rfl, isHead_of_width hkind (by decide) rfl (by omega) (by omega)⟩
        · exact ⟨_, _, rfl, isHead_of_width hkind (by decide) rfl (by omega) (by omega)⟩

theorem head_ne_nil (kind n : Nat) : head kind n ≠ [] := by
  unfold head
  split
  · simp
  · split
    · simp
    · split
      · simp
      · split <;> simp

/-! ### The first byte of an item -/

/-- An item that holds no other item is read in the same way at any depth. -/
theorem readItem_of_leaf {b : UInt8} {kind : Nat} (hb : b.toNat / 32 = kind)
    (hleaf : kind ≠ 4 ∧ kind ≠ 5 ∧ kind ≠ 6) (limit : Nat) (bs : Bytes) :
    readItem limit (b :: bs) = readLeaf kind (b.toNat % 32) bs := by
  subst hb
  obtain ⟨harray, hmap, htag⟩ := hleaf
  cases limit with
  | zero =>
      rw [readItem, if_neg]
      rintro (h | h | h)
      · exact harray h
      · exact hmap h
      · exact htag h
  | succ limit =>
      rw [readItem]
      split
      · next h => exact absurd h harray
      · next h => exact absurd h hmap
      · next h => exact absurd h htag
      · rfl

theorem readItem_of_simple {b : UInt8} (hb : b.toNat / 32 = 7) (limit : Nat) (bs : Bytes) :
    readItem limit (b :: bs) = readLeaf 7 (b.toNat % 32) bs :=
  readItem_of_leaf hb (by decide) limit bs

/-- At the greatest depth nothing is read that holds another item. -/
theorem readItem_zero_of_nested {b : UInt8}
    (hb : b.toNat / 32 = 4 ∨ b.toNat / 32 = 5 ∨ b.toNat / 32 = 6) (bs : Bytes) :
    readItem 0 (b :: bs) = none := by
  rw [readItem, if_pos hb]

/-! ### Floats -/

/-- The pattern that a float has after it was written and read: its own if it is a number. -/
def quieted (bits : UInt64) : UInt64 :=
  if binary64.isNaN bits.toNat then UInt64.ofNat binary64.quietNaN else bits

theorem quieted_of_number {bits : UInt64} (hnumber : binary64.isNaN bits.toNat = false) :
    quieted bits = bits := by
  rw [quieted, hnumber]
  rfl

/-- All that are not numbers are written alike. -/
theorem writeFloat_quieted (bits : UInt64) : writeFloat (quieted bits) = writeFloat bits := by
  cases hnumber : binary64.isNaN bits.toNat with
  | false => rw [quieted_of_number hnumber]
  | true =>
      have hquiet : binary64.isNaN (UInt64.ofNat binary64.quietNaN).toNat = true := by decide
      simp only [quieted, writeFloat, hnumber, hquiet, if_true]

example : quieted 0xfff0000000000001 = 0x7ff8000000000000 := by decide

/-- A narrower pattern stands for the number that it was made from. -/
theorem convert_of_narrowed {target : Format} {bits : UInt64} {narrow : Nat}
    (h : narrowed? target bits = some narrow) :
    target.convert binary64 narrow = bits.toNat ∧ narrow = binary64.convert target bits.toNat := by
  simp only [narrowed?] at h
  split at h
  · next hsame =>
      injection h with h
      exact ⟨h ▸ hsame, h.symm⟩
  · simp at h

theorem narrowed_lt {target : Format} {bits : UInt64} {narrow : Nat}
    (hnumber : binary64.isNaN bits.toNat = false) (h : narrowed? target bits = some narrow) :
    narrow < target.signBit + target.infinity + 1 := by
  rw [(convert_of_narrowed h).2]
  exact Nat.lt_succ_of_le (binary64.convert_le target hnumber)

/-- A float is read back from the width that it was written in. -/
theorem readItem_writeFloat (limit : Nat) (bits : UInt64) (rest : Bytes) :
    readItem limit (writeFloat bits ++ rest) = some (.float (quieted bits), rest) := by
  have hread : ∀ (low : Nat) {b : UInt8} (bs : Bytes), b.toNat / 32 = 7 → b.toNat % 32 = low →
      readItem limit (b :: bs) = readLeaf 7 low bs := by
    rintro low b bs hb rfl
    exact readItem_of_simple hb limit bs
  cases hnumber : binary64.isNaN bits.toNat with
  | true =>
      simp only [writeFloat, quieted, hnumber, if_true, List.cons_append]
      rw [hread 25 _ (by decide) (by decide)]
      simp only [readLeaf]
      have hquiet : binary16.convert binary64 binary16.quietNaN = binary64.quietNaN := by decide
      rw [readNumber_bigEndian (by decide), Option.map_some]
      dsimp only [readLeaf.widened]
      rw [hquiet]
  | false =>
      rw [quieted_of_number hnumber]
      simp only [writeFloat, hnumber, Bool.false_eq_true, if_false]
      split
      · next half hhalf =>
          have hlt := narrowed_lt hnumber hhalf
          rw [List.cons_append, hread 25 _ (by decide) (by decide)]
          simp only [readLeaf]
          rw [readNumber_bigEndian (hlt.trans (by decide)), Option.map_some]
          dsimp only [readLeaf.widened]
          rw [(convert_of_narrowed hhalf).1, UInt64.ofNat_toNat]
      · next single _ hsingle =>
          have hlt := narrowed_lt hnumber hsingle
          rw [List.cons_append, hread 26 _ (by decide) (by decide)]
          simp only [readLeaf]
          rw [readNumber_bigEndian (hlt.trans (by decide)), Option.map_some]
          dsimp only [readLeaf.widened]
          rw [(convert_of_narrowed hsingle).1, UInt64.ofNat_toNat]
      · rw [List.cons_append, hread 27 _ (by decide) (by decide)]
        simp only [readLeaf]
        rw [readNumber_bigEndian (bits.toNat_lt.trans_le (by decide)), Option.map_some]
        dsimp only
        rw [UInt64.ofNat_toNat]

end Cbor

end TokenScan
