/-
Module: TokenScan.Proofs.HashInjectivity
Purpose: What the hash does not lose. Every step of it can be undone: multiplying by an odd number,
  rotating, adding the other half, xoring a word with its own upper bits. So a block can be told from
  what it makes of the halves, the halves before a block from those after it, and the bytes of the
  tail, although they overlap when they are signed, one after the other from the lowest.
Main exports: Murmur.rotateLeft_injective, Murmur.absorb_injective, Murmur.absorbBlocks_injective,
  Murmur.take_eq_of_absorb_eq, Murmur.tailLane_injective, Murmur.tail_eq_of_absorbTail_eq,
  Murmur.DifferWithin, Murmur.finish_injective, hash_ne_of_one_block
-/
import TokenScan.Hash.Murmur
import TokenScan.Proofs.ByteNumbers

namespace TokenScan.Hash

open TokenScan.Number

namespace Murmur

/-! ### Words -/

/-- Multiplying by a number that has an inverse can be undone. -/
theorem mul_injective {c d : UInt64} (h : c * d = 1) : Function.Injective (· * c) := by
  intro x y hxy
  have hback := congrArg (· * d) hxy
  simpa only [UInt64.mul_assoc, h, UInt64.mul_one] using hback

/-- Every bit of a word is found in the rotated one. -/
theorem getLsbD_rotateLeft_place (x : BitVec 64) {n i : Nat} (hn : n < 64) (hi : i < 64) :
    (x.rotateLeft n).getLsbD ((i + n) % 64) = x.getLsbD i := by
  rw [BitVec.getLsbD_rotateLeft, Nat.mod_eq_of_lt hn, Bool.cond_decide]
  by_cases hwrap : i + n < 64
  · rw [Nat.mod_eq_of_lt hwrap, if_neg (by omega), Nat.add_sub_cancel, decide_eq_true hwrap,
      Bool.true_and]
  · have hplace : (i + n) % 64 = i + n - 64 := by omega
    have hback : 64 - n + (i + n - 64) = i := by omega
    rw [hplace, if_pos (by omega), hback]

theorem rotateLeft_injective {r : UInt64} (hpos : 0 < r.toNat) (hlt : r.toNat < 64) :
    Function.Injective (rotateLeft · r) := by
  intro x y hxy
  have hrotated : x.toBitVec.rotateLeft r.toNat = y.toBitVec.rotateLeft r.toNat := by
    rw [← toBitVec_rotateLeft x hpos hlt, ← toBitVec_rotateLeft y hpos hlt]
    exact congrArg UInt64.toBitVec hxy
  apply UInt64.toBitVec_inj.1
  apply BitVec.eq_of_getLsbD_eq
  intro i hi
  rw [← getLsbD_rotateLeft_place x.toBitVec hlt hi, hrotated, getLsbD_rotateLeft_place _ hlt hi]

/-- Xoring a word with its upper bits twice is nothing: the bits that would move twice are gone. -/
theorem xorShift_involutive : Function.Involutive fun k : UInt64 => k ^^^ (k >>> 33) := by
  intro k
  have hgone : (k >>> 33) >>> 33 = 0 := by
    rw [← UInt64.toNat_inj]
    show k.toNat >>> 33 >>> 33 = 0
    have hlt : k.toNat < 2 ^ 64 := k.toNat_lt
    rw [← Nat.shiftRight_add]
    exact Nat.shiftRight_eq_zero _ _ (hlt.trans (by decide))
  show (k ^^^ (k >>> 33)) ^^^ ((k ^^^ (k >>> 33)) >>> 33) = k
  rw [UInt64.shiftRight_xor, hgone, UInt64.xor_zero, UInt64.xor_assoc, UInt64.xor_self,
    UInt64.xor_zero]

theorem c1_mul_inverse : c1 * 0xa98409e882ce4d7d = 1 := by decide

theorem c2_mul_inverse : c2 * 0xa81e14edd9de2c7f = 1 := by decide

theorem scramble1_injective : Function.Injective scramble1 :=
  (mul_injective c2_mul_inverse).comp
    ((rotateLeft_injective (by decide) (by decide)).comp (mul_injective c1_mul_inverse))

theorem scramble2_injective : Function.Injective scramble2 :=
  (mul_injective c1_mul_inverse).comp
    ((rotateLeft_injective (by decide) (by decide)).comp (mul_injective c2_mul_inverse))

theorem avalanche_injective : Function.Injective avalanche := by
  have hfirst : Function.Injective (· * (0xff51afd7ed558ccd : UInt64)) :=
    mul_injective (d := 0x4f74430c22a54005) (by decide)
  have hsecond : Function.Injective (· * (0xc4ceb9fe1a85ec53 : UInt64)) :=
    mul_injective (d := 0x9cb4b2f8129337db) (by decide)
  have hshift := xorShift_involutive.injective
  exact hshift.comp (hsecond.comp (hshift.comp (hfirst.comp hshift)))

/-! ### Blocks -/

/-- What the halves after a block say of those before it and of the words of the block. -/
theorem eq_of_absorb_eq {s s' : Lanes} {k1 k2 k1' k2' : UInt64}
    (h : absorb s k1 k2 = absorb s' k1' k2') :
    s.h2 ^^^ scramble2 k2 = s'.h2 ^^^ scramble2 k2' ∧
      rotateLeft (s.h1 ^^^ scramble1 k1) 27 + s.h2 =
        rotateLeft (s'.h1 ^^^ scramble1 k1') 27 + s'.h2 := by
  have hfive : Function.Injective (· * (5 : UInt64)) :=
    mul_injective (d := 0xcccccccccccccccd) (by decide)
  simp only [absorb, Lanes.mk.injEq] at h
  obtain ⟨h1, h2⟩ := h
  rw [h1] at h2
  have hrotated := (UInt64.add_left_inj _).1 (hfive ((UInt64.add_left_inj _).1 h2))
  exact ⟨rotateLeft_injective (by decide) (by decide) hrotated,
    hfive ((UInt64.add_left_inj _).1 h1)⟩

/-- The halves before a block can be told from those after it. -/
theorem absorb_injective (k1 k2 : UInt64) : Function.Injective (absorb · k1 k2) := by
  intro s s' h
  obtain ⟨hsecond, hfirst⟩ := eq_of_absorb_eq h
  have h2 : s.h2 = s'.h2 := (UInt64.xor_left_inj _).1 hsecond
  rw [h2] at hfirst
  have hrotated := rotateLeft_injective (by decide) (by decide) ((UInt64.add_left_inj _).1 hfirst)
  exact Lanes.ext ((UInt64.xor_left_inj _).1 hrotated) h2

/-- The words of a block can be told from what they make of the halves. -/
theorem words_eq_of_absorb_eq {s : Lanes} {k1 k2 k1' k2' : UInt64}
    (h : absorb s k1 k2 = absorb s k1' k2') : k1 = k1' ∧ k2 = k2' := by
  obtain ⟨hsecond, hfirst⟩ := eq_of_absorb_eq h
  have hrotated := rotateLeft_injective (by decide) (by decide) ((UInt64.add_left_inj _).1 hfirst)
  exact ⟨scramble1_injective ((UInt64.xor_right_inj _).1 hrotated),
    scramble2_injective ((UInt64.xor_right_inj _).1 hsecond)⟩

theorem absorbBlocks_injective (count : Nat) (bs : Bytes) :
    Function.Injective (absorbBlocks count bs) := by
  induction count generalizing bs with
  | zero => exact fun _ _ h => h
  | succ count ih =>
      intro s s' h
      rw [absorbBlocks_succ, absorbBlocks_succ] at h
      exact absorb_injective _ _ (ih _ h)

/-- Some blocks and then some more. -/
theorem absorbBlocks_add (m n : Nat) (bs : Bytes) (s : Lanes) :
    absorbBlocks (m + n) bs s = absorbBlocks n (bs.drop (16 * m)) (absorbBlocks m bs s) := by
  induction m generalizing bs s with
  | zero =>
      rw [Nat.zero_add, Nat.mul_zero, List.drop_zero]
      rfl
  | succ m ih =>
      rw [Nat.succ_add, absorbBlocks_succ, absorbBlocks_succ, ih, List.drop_drop, Nat.mul_succ,
        Nat.add_comm 16]

/-- Nothing after the blocks is looked at. -/
theorem absorbBlocks_congr {count : Nat} {bs cs : Bytes} (s : Lanes)
    (h : bs.take (16 * count) = cs.take (16 * count)) :
    absorbBlocks count bs s = absorbBlocks count cs s := by
  induction count generalizing bs cs s with
  | zero => rfl
  | succ count ih =>
      have hblock : bs.take 16 = cs.take 16 := by
        have := congrArg (List.take 16) h
        rwa [List.take_take, List.take_take, Nat.min_eq_left (by omega)] at this
      have hrest : (bs.drop 16).take (16 * count) = (cs.drop 16).take (16 * count) := by
        have := congrArg (List.drop 16) h
        rwa [List.drop_take, List.drop_take, Nat.mul_succ, Nat.add_sub_cancel] at this
      have hfirst : word bs = word cs := by
        have := congrArg (List.take 8) hblock
        rw [List.take_take, List.take_take] at this
        exact congrArg (UInt64.ofNat ∘ ofLittleEndian) this
      have hsecond : word (bs.drop 8) = word (cs.drop 8) := by
        have := congrArg (List.drop 8) hblock
        rw [List.drop_take, List.drop_take] at this
        exact congrArg (UInt64.ofNat ∘ ofLittleEndian) this
      rw [absorbBlocks_succ, absorbBlocks_succ, hfirst, hsecond, ih _ hrest]

/-- A word tells the bytes that it is read from. -/
theorem take_eq_of_word_eq {bs cs : Bytes} (hbs : 8 ≤ bs.length) (hcs : 8 ≤ cs.length)
    (h : word bs = word cs) : bs.take 8 = cs.take 8 := by
  have hlength (ds : Bytes) (hds : 8 ≤ ds.length) : (ds.take 8).length = 8 := by
    rw [List.length_take, Nat.min_eq_left hds]
  have hnumber (ds : Bytes) (hds : 8 ≤ ds.length) :
      (word ds).toNat = ofLittleEndian (ds.take 8) := by
    have hlt := ofLittleEndian_lt (ds.take 8)
    rw [hlength ds hds] at hlt
    exact UInt64.toNat_ofNat'.trans (Nat.mod_eq_of_lt hlt)
  apply ofLittleEndian_injective ((hlength bs hbs).trans (hlength cs hcs).symm)
  rw [← hnumber bs hbs, ← hnumber cs hcs, h]

/-- The bytes of a block can be told from what it makes of the halves. -/
theorem take_eq_of_absorb_eq {s : Lanes} {bs cs : Bytes} (hbs : 16 ≤ bs.length)
    (hcs : 16 ≤ cs.length)
    (h : absorb s (word bs) (word (bs.drop 8)) = absorb s (word cs) (word (cs.drop 8))) :
    bs.take 16 = cs.take 16 := by
  obtain ⟨hfirst, hsecond⟩ := words_eq_of_absorb_eq h
  have hlow := take_eq_of_word_eq (by omega) (by omega) hfirst
  have hrest (ds : Bytes) (hds : 16 ≤ ds.length) : 8 ≤ (ds.drop 8).length := by
    rw [List.length_drop]
    omega
  have hhigh := take_eq_of_word_eq (hrest bs hbs) (hrest cs hcs) hsecond
  rw [List.take_add (i := 8) (j := 8), List.take_add (i := 8) (j := 8), hlow, hhigh]

/-! ### The tail -/

/-- No byte after the first one reaches its eight bits. -/
theorem getLsbD_tailLane_low (b : UInt8) (bs : Bytes) {i : Nat} (hi : i < 8) :
    (tailLane (b :: bs)).toBitVec.getLsbD i = b.toBitVec.getLsbD i := by
  rw [toBitVec_tailLane_cons, BitVec.getLsbD_xor, BitVec.getLsbD_shiftLeft,
    BitVec.getLsbD_signExtend, if_pos hi, decide_eq_true hi, decide_eq_true (by omega : i < 64)]
  simp

/-- Above its own bits the first byte has only its sign. -/
theorem getLsbD_tailLane_high (b : UInt8) (bs : Bytes) {i : Nat} (hi : i + 8 < 64) :
    (tailLane (b :: bs)).toBitVec.getLsbD (i + 8) =
      ((b.toBitVec.signExtend 64).getLsbD (i + 8) ^^ (tailLane bs).toBitVec.getLsbD i) := by
  rw [toBitVec_tailLane_cons, BitVec.getLsbD_xor, BitVec.getLsbD_shiftLeft, decide_eq_true hi,
    decide_eq_false (by omega : ¬ i + 8 < 8), Nat.add_sub_cancel]
  rfl

/-- The bytes of a lane are told from the lowest on: the first one is seen in the low bits, and once
    its sign is taken away the bits above are those of the lane that the other bytes make. -/
theorem eq_of_tailLane_bits {bs cs : Bytes} (hlength : bs.length = cs.length)
    (hfits : bs.length ≤ 8)
    (h : ∀ i < 8 * bs.length,
      (tailLane bs).toBitVec.getLsbD i = (tailLane cs).toBitVec.getLsbD i) : bs = cs := by
  induction bs generalizing cs with
  | nil => exact (List.length_eq_zero_iff.1 hlength.symm).symm
  | cons b bs ih =>
      cases cs with
      | nil => exact absurd hlength nofun
      | cons c cs =>
          rw [List.length_cons] at hfits h
          have hlow : b.toBitVec = c.toBitVec := by
            apply BitVec.eq_of_getLsbD_eq
            intro i hi
            rw [← getLsbD_tailLane_low b bs hi, h i (by omega), getLsbD_tailLane_low c cs hi]
          obtain rfl : b = c := UInt8.toBitVec_inj.1 hlow
          have hrest : bs = cs := by
            refine ih (Nat.succ.inj hlength) (by omega) fun i hi => ?_
            have hbit := h (i + 8) (by omega)
            rw [getLsbD_tailLane_high b bs (by omega), getLsbD_tailLane_high b cs (by omega)]
              at hbit
            exact Bool.xor_right_inj.1 hbit
          rw [hrest]

theorem tailLane_injective {bs cs : Bytes} (hlength : bs.length = cs.length) (hfits : bs.length ≤ 8)
    (h : tailLane bs = tailLane cs) : bs = cs :=
  eq_of_tailLane_bits hlength hfits fun i _ => by rw [h]

/-- The halves before the tail can be told from those after it. -/
theorem absorbTail_injective (tail : Bytes) : Function.Injective (absorbTail tail) := by
  intro s s' h
  simp only [absorbTail, Lanes.mk.injEq] at h
  obtain ⟨h1, h2⟩ := h
  apply Lanes.ext
  · split at h1
    · exact h1
    · exact (UInt64.xor_left_inj _).1 h1
  · split at h2
    · exact h2
    · exact (UInt64.xor_left_inj _).1 h2

/-- The bytes of a tail can be told from what it makes of the halves. -/
theorem tail_eq_of_absorbTail_eq {s : Lanes} {tail tail' : Bytes}
    (hlength : tail.length = tail'.length) (hfits : tail.length ≤ 16)
    (h : absorbTail tail s = absorbTail tail' s) : tail = tail' := by
  simp only [absorbTail, Lanes.mk.injEq, ← hlength] at h
  obtain ⟨h1, h2⟩ := h
  have hlow : tail.take 8 = tail'.take 8 := by
    by_cases hempty : tail = []
    · subst hempty
      rw [List.length_eq_zero_iff.1 hlength.symm]
    · have hempty' : tail' ≠ [] := by
        rintro rfl
        exact hempty (List.length_eq_zero_iff.1 hlength)
      rw [if_neg hempty, if_neg hempty'] at h1
      refine tailLane_injective ?_ ?_ (scramble1_injective ((UInt64.xor_right_inj _).1 h1))
      · rw [List.length_take, List.length_take, hlength]
      · exact List.length_take_le 8 tail
  have hhigh : tail.drop 8 = tail'.drop 8 := by
    by_cases hshort : tail.length ≤ 8
    · rw [List.drop_eq_nil_of_le hshort, List.drop_eq_nil_of_le (hlength ▸ hshort)]
    · rw [if_neg hshort, if_neg hshort] at h2
      refine tailLane_injective ?_ ?_ (scramble2_injective ((UInt64.xor_right_inj _).1 h2))
      · rw [List.length_drop, List.length_drop, hlength]
      · rw [List.length_drop]
        omega
  rw [← List.take_append_drop 8 tail, hlow, hhigh, List.take_append_drop]

/-! ### Keys that differ in one block -/

/-- Two keys differ nowhere but in one block of sixteen bytes; the bytes after the whole blocks make
    the last one. -/
def DifferWithin (block : Nat) (key key' : Bytes) : Prop :=
  ∀ i : Nat, key[i]? ≠ key'[i]? → i / 16 = block

section Within

variable {block : Nat} {key key' : Bytes}

theorem DifferWithin.take_eq (h : DifferWithin block key key') :
    key.take (16 * block) = key'.take (16 * block) := by
  apply List.ext_getElem?
  intro i
  rw [List.getElem?_take, List.getElem?_take]
  split
  · by_contra hne
    have := h i hne
    omega
  · rfl

theorem DifferWithin.drop_eq (h : DifferWithin block key key') :
    key.drop (16 * (block + 1)) = key'.drop (16 * (block + 1)) := by
  apply List.ext_getElem?
  intro i
  rw [List.getElem?_drop, List.getElem?_drop]
  by_contra hne
  have := h _ hne
  omega

/-- Keys whose block is the same too are the same. -/
theorem DifferWithin.eq_of_block_eq (h : DifferWithin block key key')
    (hblock : (key.drop (16 * block)).take 16 = (key'.drop (16 * block)).take 16) : key = key' := by
  have hrest : key.drop (16 * block) = key'.drop (16 * block) := by
    rw [← List.take_append_drop 16 (key.drop (16 * block)), hblock, List.drop_drop,
      ← Nat.mul_succ, h.drop_eq, Nat.mul_succ, ← List.drop_drop, List.take_append_drop]
  rw [← List.take_append_drop (16 * block) key, h.take_eq, hrest, List.take_append_drop]

/-- A block among the whole ones can be told from the halves after them all. -/
theorem DifferWithin.block_eq_of_absorbBlocks_eq {count : Nat} {s : Lanes}
    (h : DifferWithin block key key') (hlength : key.length = key'.length)
    (hfits : 16 * count ≤ key.length) (hblock : block < count)
    (heq : absorbBlocks count key s = absorbBlocks count key' s) :
    (key.drop (16 * block)).take 16 = (key'.drop (16 * block)).take 16 := by
  obtain ⟨rest, rfl⟩ := Nat.exists_eq_add_of_lt hblock
  rw [Nat.add_assoc, absorbBlocks_add block, absorbBlocks_add block, absorbBlocks_succ,
    absorbBlocks_succ, List.drop_drop (i := 16), List.drop_drop (i := 16), ← Nat.mul_succ, h.drop_eq,
    absorbBlocks_congr s h.take_eq] at heq
  have hroom (ds : Bytes) (hds : ds.length = key.length) : 16 ≤ (ds.drop (16 * block)).length := by
    rw [List.length_drop, hds]
    omega
  exact take_eq_of_absorb_eq (hroom key rfl) (hroom key' hlength.symm)
    (absorbBlocks_injective rest _ heq)

end Within

/-! ### The whole key -/

theorem finish_injective (length : Nat) : Function.Injective (finish length) := by
  intro s s' h
  simp only [finish, Lanes.mk.injEq] at h
  obtain ⟨h1, h2⟩ := h
  -- The additions are undone in the order opposite to the one they are made in.
  rw [h1] at h2
  have hsecond := (UInt64.add_left_inj _).1 h2
  rw [hsecond] at h1
  have hsum := avalanche_injective ((UInt64.add_left_inj _).1 h1)
  have hboth := avalanche_injective hsecond
  rw [hsum] at hboth
  have hlength2 := (UInt64.add_left_inj _).1 hboth
  rw [hlength2] at hsum
  have hlength1 := (UInt64.add_left_inj _).1 hsum
  exact Lanes.ext ((UInt64.xor_left_inj _).1 hlength1) ((UInt64.xor_left_inj _).1 hlength2)

/-- The halves after the tail can be told from the hash. -/
theorem absorbTail_eq_of_hash_eq {key key' : Bytes} {seed : UInt64}
    (hlength : key.length = key'.length) (h : hash key seed = hash key' seed) :
    absorbTail (key.drop (16 * (key.length / 16)))
        (absorbBlocks (key.length / 16) key ⟨seed, seed⟩) =
      absorbTail (key'.drop (16 * (key.length / 16)))
        (absorbBlocks (key.length / 16) key' ⟨seed, seed⟩) := by
  simp only [hash, ← hlength, Prod.mk.injEq] at h
  apply finish_injective key.length
  exact Lanes.ext (congrArg Int64.toUInt64 h.1) (congrArg Int64.toUInt64 h.2)

/-- Keys of one length that differ in one block only, wherever it is, are told apart. -/
theorem DifferWithin.eq_of_hash_eq {block : Nat} {key key' : Bytes} {seed : UInt64}
    (h : DifferWithin block key key') (hlength : key.length = key'.length)
    (heq : hash key seed = hash key' seed) : key = key' := by
  have htails := absorbTail_eq_of_hash_eq hlength heq
  apply h.eq_of_block_eq
  rcases Nat.lt_or_ge block (key.length / 16) with hwhole | hlast
  · -- The tails are the same, and so are the halves before them.
    have hafter : key.drop (16 * (key.length / 16)) = key'.drop (16 * (key.length / 16)) := by
      obtain ⟨rest, hrest⟩ := Nat.exists_eq_add_of_le (Nat.succ_le_of_lt hwhole)
      rw [hrest, Nat.mul_add, ← List.drop_drop, ← List.drop_drop, h.drop_eq]
    rw [hafter] at htails
    exact h.block_eq_of_absorbBlocks_eq hlength (Nat.mul_div_le _ _) hwhole
      (absorbTail_injective _ htails)
  · -- The whole blocks are the same, so it is the tails that tell.
    have hbefore : key.take (16 * (key.length / 16)) = key'.take (16 * (key.length / 16)) := by
      have := congrArg (List.take (16 * (key.length / 16))) h.take_eq
      rwa [List.take_take, List.take_take, Nat.min_eq_left (by omega)] at this
    rw [absorbBlocks_congr _ hbefore] at htails
    have htail := tail_eq_of_absorbTail_eq (by rw [List.length_drop, List.length_drop, hlength])
      (by rw [List.length_drop]; omega) htails
    rw [← List.take_append_drop (16 * (key.length / 16)) key, hbefore, htail,
      List.take_append_drop]

end Murmur

open Murmur in
/-- Nothing is lost in one block: for every seed, keys of one length that differ only in one block of
    sixteen bytes, or only in the bytes after the last whole one, have different halves. So no two keys
    of one length up to sixteen bytes have the same. -/
theorem hash_ne_of_one_block (seed : UInt64) {key key' : Bytes} (hlength : key.length = key'.length)
    (hne : key ≠ key') :
    (∀ block, DifferWithin block key key' → hash key seed ≠ hash key' seed) ∧
      (key.length ≤ 16 → hash key seed ≠ hash key' seed) := by
  have hblock (block : Nat) (h : DifferWithin block key key') : hash key seed ≠ hash key' seed :=
    fun heq => hne (h.eq_of_hash_eq hlength heq)
  refine ⟨hblock, fun hshort => hblock 0 ?_⟩
  intro i hi
  have hi16 : i < 16 := by
    by_contra hge
    apply hi
    rw [List.getElem?_eq_none (by omega), List.getElem?_eq_none (by omega)]
  exact Nat.div_eq_of_lt hi16

/-- Two keys of forty bytes that are high all through, but for one sign in the tail. -/
theorem hash_ne_of_one_block_with_high_bytes :
    List.replicate 40 (0xFF : UInt8) ≠ List.replicate 32 0xFF ++ 0x7F :: List.replicate 7 0xFF ∧
      Murmur.hash (List.replicate 40 0xFF) 0 ≠
        Murmur.hash (List.replicate 32 0xFF ++ 0x7F :: List.replicate 7 0xFF) 0 := by
  have hne : List.replicate 40 (0xFF : UInt8) ≠
      List.replicate 32 0xFF ++ 0x7F :: List.replicate 7 0xFF := by decide
  have hplace : ∀ i < 40, (List.replicate 40 (0xFF : UInt8))[i]? ≠
      (List.replicate 32 0xFF ++ 0x7F :: List.replicate 7 0xFF)[i]? → i / 16 = 2 := by decide
  refine ⟨hne, (hash_ne_of_one_block 0 (by decide) hne).1 2 fun i hi => hplace i ?_ hi⟩
  by_contra hge
  apply hi
  rw [List.getElem?_eq_none (by simpa using hge), List.getElem?_eq_none (by simpa using hge)]

end TokenScan.Hash
