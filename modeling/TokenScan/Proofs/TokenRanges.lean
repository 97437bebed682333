/-
Module: TokenScan.Proofs.TokenRanges
Purpose: The ranges of the tokens that keys get. Under Murmur3 the least number of 64 bits is left to
  the empty key, under Random the magnitude of a signed digest reaches one past the signed range, for
  one digest only; so every other key lies above the empty one and has a split that owns it.
Main exports: lt_murmurToken, TwosComplement.natAbs_value_eq_iff, Partitioner.emptyToken_lt,
  token_placement
-/
import TokenScan.Proofs.SplitOwners
import TokenScan.Proofs.TokenPlacement

namespace TokenScan

namespace Number

/-- Of the signed numbers of sixteen bytes only the least has a magnitude that needs another bit. -/
theorem TwosComplement.natAbs_value_eq_iff {bs : Bytes} (hlength : bs.length = 16) :
    (TwosComplement.value bs).natAbs = 2 ^ 127 ↔ bs = 0x80 :: List.replicate 15 0 := by
  constructor
  · intro hmagnitude
    have hbounds := TwosComplement.value_bounds hlength
    have hleast : TwosComplement.value bs = -2 ^ 127 := by omega
    have hne : bs ≠ [] := List.length_pos_iff.1 (hlength ▸ Nat.succ_pos 15)
    have hspelt := TwosComplement.fixed_value hne
    rw [hlength, hleast] at hspelt
    rw [← hspelt]
    decide
  · rintro rfl
    decide

end Number

open TokenScan.Number

/-- A hash that comes out as the least number is moved away from it. -/
theorem lt_murmurToken {key : Bytes} (hkey : key ≠ []) : -2 ^ 63 < murmurToken key := by
  have hle := (Hash.Murmur.hash key 0).1.le_toInt
  simp only [murmurToken, if_neg hkey]
  split
  · decide
  · next hleast => exact lt_of_le_of_ne hle (Ne.symm hleast)

variable {digest : Bytes → Bytes}

/-- The empty key is off the ring of Random. -/
theorem Partitioner.random_tokenWith_nil : random.tokenWith digest [] = -1 := rfl

/-- The token of the empty key comes before all others. -/
theorem Partitioner.emptyToken_lt (hdigest : ∀ key, (digest key).length = 16) (p : Partitioner)
    {key : Bytes} (hkey : key ≠ []) : p.tokenWith digest [] < p.tokenWith digest key := by
  cases p with
  | murmur3 => exact lt_murmurToken hkey
  | random =>
      rw [random_tokenWith_nil]
      exact lt_of_lt_of_le (by decide) (randomToken_bounds hdigest hkey).1

/-- The token of the empty key under Murmur3 is the first of the ring, and so in the first split. -/
theorem Partitioner.splitFor_minToken (p : Partitioner) {n : UInt64} (hn : n ≠ 0) :
    p.splitFor n p.minToken = some 0 := by
  have hpos := toNat_pos_of_ne_zero hn
  have hnext := p.splitLower_lt_succ hpos (p.toNat_le_width n) 0
  rw [p.splitFor_eq_some_iff, p.contains_splitRange_iff hpos (p.toNat_le_width n)]
  rw [splitLower_zero] at hnext ⊢
  exact ⟨hpos, le_rfl, hnext⟩

/-- Every key but the empty one has a token on the ring of its partitioner, above that of the empty
    key and owned by a split. Under Murmur3 the least number of 64 bits is never taken; under Random
    the end of the ring is reached, by one digest. The empty key is owned by the first split under
    Murmur3 and by none under Random. -/
theorem token_placement (hdigest : ∀ key, (digest key).length = 16) :
    (∀ (p : Partitioner) (key : Bytes), key ≠ [] →
      p.ring.contains (p.tokenWith digest key) = true ∧
      p.tokenWith digest [] < p.tokenWith digest key ∧
      ∀ n : UInt64, n ≠ 0 → ∃ i, p.splitFor n (p.tokenWith digest key) = some i ∧ i < n.toNat) ∧
    (∀ key : Bytes, key ≠ [] →
      -2 ^ 63 + 1 ≤ Partitioner.murmur3.tokenWith digest key ∧
      Partitioner.murmur3.tokenWith digest key ≤ 2 ^ 63 - 1) ∧
    (∀ key : Bytes, key ≠ [] →
      0 ≤ Partitioner.random.tokenWith digest key ∧
      Partitioner.random.tokenWith digest key ≤ 2 ^ 127 ∧
      (Partitioner.random.tokenWith digest key = 2 ^ 127 ↔
        digest key = 0x80 :: List.replicate 15 0)) ∧
    ∀ n : UInt64, n ≠ 0 →
      Partitioner.murmur3.splitFor n (Partitioner.murmur3.tokenWith digest []) = some 0 ∧
      Partitioner.random.splitFor n (Partitioner.random.tokenWith digest []) = none := by
  refine ⟨?_, ?_, ?_, ?_⟩
  · intro p key hkey
    have hring := p.tokenWith_mem_ring hdigest (.inl hkey)
    refine ⟨hring, p.emptyToken_lt hdigest hkey, ?_⟩
    intro n hn
    obtain ⟨i, hfound, hi, -⟩ := p.splitFor_of_contains hn hring
    exact ⟨i, hfound, hi⟩
  · intro key hkey
    exact ⟨Int.add_one_le_of_lt (lt_murmurToken hkey), (murmurToken_bounds key).2⟩
  · intro key hkey
    have hbounds := randomToken_bounds hdigest hkey
    refine ⟨hbounds.1, hbounds.2, ?_⟩
    rw [← TwosComplement.natAbs_value_eq_iff (hdigest key), Partitioner.tokenWith, randomToken,
      if_neg hkey]
    exact_mod_cast Iff.rfl
  · intro n hn
    refine ⟨Partitioner.splitFor_minToken .murmur3 hn, ?_⟩
    rw [Partitioner.random_tokenWith_nil, Partitioner.splitFor_eq_none_iff]
    exact .inr rfl

/-- The digest of `abc` has its high bit set, so the token under Random is what is missing to
    `2 ^ 128`; it lies in the last of four splits. -/
theorem token_placement_of_abc :
    let key : Bytes := [0x61, 0x62, 0x63]
    let token := Partitioner.random.tokenWith Hash.Md5.digest key
    (∀ key, (Hash.Md5.digest key).length = 16) ∧ key ≠ [] ∧ (4 : UInt64) ≠ 0 ∧
      token = 2 ^ 128 - 0x900150983cd24fb0d6963f7d28e17f72 ∧
      Partitioner.random.ring.contains token = true ∧
      Partitioner.random.tokenWith Hash.Md5.digest [] < token ∧ 0 ≤ token ∧ token ≤ 2 ^ 127 ∧
      ∃ i, Partitioner.random.splitFor 4 token = some i ∧ i < 4 := by
  intro key token
  have hkey : key ≠ [] := List.cons_ne_nil _ _
  have hfour : (4 : UInt64) ≠ 0 := by decide
  obtain ⟨hplaced, -, hrandom, -⟩ := token_placement Hash.Md5.length_digest
  obtain ⟨hring, habove, howner⟩ := hplaced .random key hkey
  obtain ⟨hlow, hhigh, -⟩ := hrandom key hkey
  exact ⟨Hash.Md5.length_digest, hkey, hfour, by decide +kernel, hring, habove, hlow, hhigh,
    howner 4 hfour⟩

end TokenScan
