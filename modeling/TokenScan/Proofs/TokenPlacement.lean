/-
Module: TokenScan.Proofs.TokenPlacement
Purpose: Where the tokens of keys lie. Every key but the empty one under Random has a token on the
  ring of its partitioner; of the digest only its length of sixteen bytes matters.
Main exports: value_bounds, randomToken_bounds, murmurToken_bounds, tokenWith_mem_ring
-/
import TokenScan.Proofs.RingSplits
import TokenScan.Proofs.SignedBytes
import TokenScan.Ring.KeyTarget

namespace TokenScan

namespace Number

/-- The sixteen bytes of a digest denote a signed number of 128 bits. -/
theorem TwosComplement.value_bounds {bs : Bytes} (hlength : bs.length = 16) :
    -2 ^ 127 ≤ TwosComplement.value bs ∧ TwosComplement.value bs < 2 ^ 127 := by
  have hne : bs ≠ [] := List.length_pos_iff.1 (hlength ▸ Nat.succ_pos 15)
  have hfits := TwosComplement.fits_value hne
  rw [hlength] at hfits
  exact TwosComplement.fits_iff.1 hfits

end Number

open TokenScan.Number

/-- A token under Murmur3 is a signed 64-bit number; only the empty key has the least. -/
theorem murmurToken_bounds (key : Bytes) :
    -2 ^ 63 ≤ murmurToken key ∧ murmurToken key ≤ 2 ^ 63 - 1 := by
  have hle := (Hash.Murmur.hash key 0).1.le_toInt
  have hlt := (Hash.Murmur.hash key 0).1.toInt_lt
  simp only [murmurToken]
  split
  · decide
  · split
    · decide
    · lia

/-- A token under Random is the magnitude of a signed 128-bit number. -/
theorem randomToken_bounds {digest : Bytes → Bytes} (hdigest : ∀ key, (digest key).length = 16)
    {key : Bytes} (hkey : key ≠ []) :
    0 ≤ randomToken digest key ∧ randomToken digest key ≤ 2 ^ 127 := by
  have hvalue := TwosComplement.value_bounds (hdigest key)
  simp only [randomToken, if_neg hkey]
  lia

/-- A key has a token on the ring, unless it is empty and hashed with Random. -/
theorem Partitioner.tokenWith_mem_ring {digest : Bytes → Bytes}
    (hdigest : ∀ key, (digest key).length = 16) (p : Partitioner) {key : Bytes}
    (hkey : key ≠ [] ∨ p = .murmur3) : p.ring.contains (p.tokenWith digest key) := by
  rw [ring_eq]
  simp only [TokenRange.contains, Bool.and_eq_true, decide_eq_true_eq]
  cases p with
  | murmur3 => exact murmurToken_bounds key
  | random => exact randomToken_bounds hdigest (hkey.resolve_right (by decide))

end TokenScan
