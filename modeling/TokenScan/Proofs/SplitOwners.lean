/-
Module: TokenScan.Proofs.SplitOwners
Purpose: The owner of a token is found without looking at the splits. The first token of a split
  comes from one division rounded down and the guess from another, and the two roundings together
  are off by one split at most, always downwards; so the search up from the guess makes at most one
  step, and the search down makes none.
Main exports: Partitioner.splitGuess_bounds, Partitioner.climb_stops, Partitioner.descend_of_le,
  Partitioner.splitFor_eq_some_iff, Partitioner.split_owner
-/
import Mathlib.Tactic.Linarith
import Mathlib.Tactic.Ring
import TokenScan.Proofs.RingSplits

namespace TokenScan.Partitioner

variable (p : Partitioner) {n : Nat} {t : Token}

theorem contains_ring_iff : p.ring.contains t = true ↔ p.minToken ≤ t ∧ t < p.maxToken + 1 := by
  rw [ring_eq]
  simp only [TokenRange.contains, Bool.and_eq_true, decide_eq_true_eq]
  lia

theorem width_pos : 0 < p.ring.width :=
  lt_of_lt_of_le (by decide) p.pow_le_width

/-- The start of the ring is rounded away: split `i` starts at or before a token exactly when the
    share of the ring before the split is no greater than the share before the token. -/
theorem splitLower_le_iff (hn : 0 < n) (i : Nat) :
    p.splitLower n i ≤ t ↔ p.ring.width * i < (t - p.minToken + 1) * n := by
  have hn' : (0 : Int) < n := by exact_mod_cast hn
  rw [splitLower, ← Int.ediv_lt_iff_lt_mul hn']
  lia

/-! ### The guess -/

section OnRing

variable (hn : 0 < n) (ht : p.ring.contains t = true)

include ht

/-- The guess is the share of the ring before the token in splits, rounded down. -/
theorem cast_splitGuess :
    (p.splitGuess n t : Int) = (t - p.minToken) * n / p.ring.width := by
  have hoffset : 0 ≤ t - p.minToken := by
    have := (p.contains_ring_iff.1 ht).1
    lia
  rw [splitGuess, Int.toNat_of_nonneg]
  exact Int.ediv_nonneg (mul_nonneg hoffset (by lia)) p.width_pos.le

theorem splitGuess_bounds :
    p.ring.width * p.splitGuess n t ≤ (t - p.minToken) * n ∧
      (t - p.minToken) * n < p.ring.width * (p.splitGuess n t + 1 : Nat) := by
  have hwidth := p.width_pos
  push_cast
  rw [p.cast_splitGuess ht]
  have hdivision := Int.emod_add_mul_ediv ((t - p.minToken) * n) p.ring.width
  have := Int.emod_nonneg ((t - p.minToken) * n) hwidth.ne'
  have := Int.emod_lt_of_pos ((t - p.minToken) * n) hwidth
  constructor
  · linarith
  · linarith

include hn

/-- The guess is the index of a split. -/
theorem splitGuess_lt : p.splitGuess n t < n := by
  have hn' : (0 : Int) < n := by exact_mod_cast hn
  have hwidth := p.width_pos
  have hlow := (p.splitGuess_bounds ht (n := n)).1
  have hoffset : t - p.minToken < p.ring.width := by
    rw [TokenRange.width, ring_eq]
    have := (p.contains_ring_iff.1 ht).2
    lia
  have hbelow : p.ring.width * p.splitGuess n t < p.ring.width * n :=
    lt_of_le_of_lt hlow (mul_lt_mul_of_pos_right hoffset hn')
  exact_mod_cast lt_of_mul_lt_mul_left hbelow hwidth.le

/-- The split that is guessed starts at or before the token. -/
theorem splitLower_guess_le : p.splitLower n (p.splitGuess n t) ≤ t := by
  rw [p.splitLower_le_iff hn]
  have := (p.splitGuess_bounds ht (n := n)).1
  have hn' : (0 : Int) < n := by exact_mod_cast hn
  linarith

/-- The second split after the one that is guessed starts past the token. -/
theorem lt_splitLower_guess (hle : (n : Int) ≤ p.ring.width) :
    t < p.splitLower n (p.splitGuess n t + 2) := by
  rw [← not_le, p.splitLower_le_iff hn, not_lt]
  have := (p.splitGuess_bounds ht (n := n)).2
  push_cast at this ⊢
  linarith

end OnRing

/-! ### The corrections -/

/-- The search up keeps to splits that start at or before the token, and ends because its test
    fails: as many steps as there are splits are enough. -/
theorem climb_stops (n : Nat) (t : Token) (fuel i : Nat) (hi : i < n) (hfuel : n ≤ i + fuel)
    (hlow : p.splitLower n i ≤ t) :
    let reached := p.climb n t fuel i
    i ≤ reached ∧ reached < n ∧ p.splitLower n reached ≤ t ∧
      ¬ (reached + 1 < n ∧ p.splitLower n (reached + 1) ≤ t) := by
  induction fuel generalizing i with
  | zero => omega
  | succ fuel ih =>
      simp only [climb]
      split
      · next hstep =>
          obtain ⟨hle, hrest⟩ := ih (i + 1) hstep.1 (by omega) hstep.2
          exact ⟨by omega, hrest⟩
      · next hstop => exact ⟨Nat.le_refl i, hi, hlow, hstop⟩

/-- The search down does not move from a split that starts at or before the token. -/
theorem descend_of_le {i : Nat} (hlow : p.splitLower n i ≤ t) : p.descend n t i = i := by
  cases i with
  | zero => rfl
  | succ i => rw [descend, if_neg (not_lt.2 hlow)]

/-- The split where the search up ends holds the token. -/
theorem contains_of_climb_stopped (hn : 0 < n) (hle : (n : Int) ≤ p.ring.width)
    (ht : p.ring.contains t = true) {i : Nat} (hi : i < n) (hlow : p.splitLower n i ≤ t)
    (hstop : ¬ (i + 1 < n ∧ p.splitLower n (i + 1) ≤ t)) : (p.splitRange n i).contains t := by
  rw [p.contains_splitRange_iff hn hle]
  refine ⟨hlow, ?_⟩
  by_cases hlast : i + 1 < n
  · exact not_le.1 fun hnext => hstop ⟨hlast, hnext⟩
  · have hself : i + 1 = n := by omega
    rw [hself, p.splitLower_self hn]
    exact (p.contains_ring_iff.1 ht).2

theorem ring_contains_of_splitRange (hn : 0 < n) (hle : (n : Int) ≤ p.ring.width) {i : Nat}
    (hi : i < n) (hmem : (p.splitRange n i).contains t) : p.ring.contains t = true := by
  rw [p.contains_splitRange_iff hn hle] at hmem
  rw [contains_ring_iff, ← p.splitLower_zero n, ← p.splitLower_self hn]
  exact ⟨(p.splitLower_mono hn (Nat.zero_le i)).trans hmem.1,
    lt_of_lt_of_le hmem.2 (p.splitLower_mono hn hi)⟩

/-! ### The owner -/

variable {n : UInt64}

theorem splitFor_eq_none_iff :
    p.splitFor n t = none ↔ n = 0 ∨ p.ring.contains t = false := by
  have hzero : n.toNat = 0 ↔ n = 0 := UInt64.toNat_inj (b := 0)
  rw [splitFor]
  split
  · next hnone =>
      rw [hzero, Bool.not_eq_true] at hnone
      exact iff_of_true rfl hnone
  · next hsome =>
      rw [hzero, Bool.not_eq_true] at hsome
      exact iff_of_false (Option.some_ne_none _) hsome

section Search

variable (hn : n ≠ 0) (ht : p.ring.contains t = true)

include hn ht

/-- The search goes from a valid guess up by one split at most, and ends at a split that holds the
    token. -/
theorem climb_guess :
    let guess := p.splitGuess n.toNat t
    let reached := p.climb n.toNat t (n.toNat - guess) guess
    (reached = guess ∨ reached = guess + 1) ∧ reached < n.toNat ∧
      p.splitLower n.toNat reached ≤ t ∧
      ¬ (reached + 1 < n.toNat ∧ p.splitLower n.toNat (reached + 1) ≤ t) := by
  intro guess reached
  have hpos := toNat_pos_of_ne_zero hn
  have hguess : guess < n.toNat := p.splitGuess_lt hpos ht
  obtain ⟨hup, hreached, hlow, hstop⟩ := p.climb_stops n.toNat t (n.toNat - guess) guess hguess
    (by omega) (p.splitLower_guess_le hpos ht)
  refine ⟨?_, hreached, hlow, hstop⟩
  by_contra hfar
  have hmono := p.splitLower_mono hpos (show guess + 2 ≤ reached by omega)
  exact absurd (hmono.trans hlow)
    (not_le.2 (p.lt_splitLower_guess hpos ht (p.toNat_le_width n)))

theorem splitFor_of_contains : ∃ i, p.splitFor n t = some i ∧ i < n.toNat ∧
    (p.splitRange n.toNat i).contains t := by
  have hpos := toNat_pos_of_ne_zero hn
  obtain ⟨-, hreached, hlow, hstop⟩ := p.climb_guess hn ht
  refine ⟨_, ?_, hreached,
    p.contains_of_climb_stopped hpos (p.toNat_le_width n) ht hreached hlow hstop⟩
  rw [splitFor, if_neg]
  · exact congrArg some (p.descend_of_le hlow)
  · simp [hpos.ne', ht]

end Search

/-- The search finds the split that holds the token. -/
theorem splitFor_eq_some_iff {i : Nat} :
    p.splitFor n t = some i ↔ i < n.toNat ∧ (p.splitRange n.toNat i).contains t := by
  have hle := p.toNat_le_width n
  constructor
  · intro hfound
    have hsearched : ¬ (n = 0 ∨ p.ring.contains t = false) := by
      rw [← p.splitFor_eq_none_iff, hfound]
      exact Option.some_ne_none i
    rw [not_or, Bool.not_eq_false] at hsearched
    obtain ⟨j, hj, hlt, hmem⟩ := p.splitFor_of_contains hsearched.1 hsearched.2
    obtain rfl := Option.some.inj (hj.symm.trans hfound)
    exact ⟨hlt, hmem⟩
  · intro h
    obtain ⟨hi, hmem⟩ := h
    have hpos : 0 < n.toNat := Nat.zero_lt_of_lt hi
    have hn : n ≠ 0 := by
      rintro rfl
      exact Nat.lt_irrefl 0 hpos
    obtain ⟨j, hj, -, hmem'⟩ :=
      p.splitFor_of_contains hn (p.ring_contains_of_splitRange hpos hle hi hmem)
    rw [hj, p.splitRange_unique hpos hle hmem hmem']

/-- The split that is found for a token is the one whose range holds it, and there is none exactly
    without splits or off the ring. On the way the guess is the index of a split, the search up
    makes at most one step and ends by its own test, and the search down makes none. -/
theorem split_owner (p : Partitioner) (n : UInt64) (t : Token) :
    (∀ i, p.splitFor n t = some i ↔
      ∃ s, (p.splits n)[i]? = some s ∧ s.range.contains t = true) ∧
    (p.splitFor n t = none ↔ n = 0 ∨ p.ring.contains t = false) ∧
    (n ≠ 0 → p.ring.contains t = true →
      let guess := p.splitGuess n.toNat t
      let reached := p.climb n.toNat t (n.toNat - guess) guess
      (guess : Int) = (t - p.minToken) * n.toNat / p.ring.width ∧ guess < n.toNat ∧
        (reached = guess ∨ reached = guess + 1) ∧
        ¬ (reached + 1 < n.toNat ∧ p.splitLower n.toNat (reached + 1) ≤ t) ∧
        p.descend n.toNat t reached = reached) := by
  refine ⟨?_, p.splitFor_eq_none_iff, ?_⟩
  · intro i
    rw [splitFor_eq_some_iff, splits, List.getElem?_map]
    by_cases hi : i < n.toNat
    · simp [hi]
    · simp [hi]
  · intro hn ht guess reached
    obtain ⟨hone, -, hlow, hstop⟩ := p.climb_guess hn ht
    exact ⟨p.cast_splitGuess ht, p.splitGuess_lt (toNat_pos_of_ne_zero hn) ht, hone, hstop,
      p.descend_of_le hlow⟩

/-- In three splits the first token of the second is guessed to lie in the first; one step up finds
    its split. -/
theorem split_owner_at_boundary :
    let t : Token := -3074457345618258603
    (3 : UInt64) ≠ 0 ∧ murmur3.ring.contains t = true ∧ murmur3.splitGuess 3 t = 0 ∧
      murmur3.climb 3 t 3 0 = 1 ∧ murmur3.descend 3 t 1 = 1 ∧ murmur3.splitFor 3 t = some 1 ∧
      ∃ s, (murmur3.splits 3)[1]? = some s ∧ s.range.contains t = true := by
  intro t
  have hthree : (3 : UInt64) ≠ 0 := by decide
  have hring : murmur3.ring.contains t = true := by decide
  have hguess : murmur3.splitGuess 3 t = 0 := by decide
  have hclimb : murmur3.climb 3 t 3 0 = 1 := by decide
  have hfound : murmur3.splitFor 3 t = some 1 := by decide
  obtain ⟨howner, -, hsearch⟩ := murmur3.split_owner 3 t
  obtain ⟨-, -, -, -, hstay⟩ := hsearch hthree hring
  have hcount : (3 : UInt64).toNat = 3 := rfl
  rw [hcount, hguess, Nat.sub_zero, hclimb] at hstay
  exact ⟨hthree, hring, hguess, hclimb, hstay, hfound, (howner 1).1 hfound⟩

end TokenScan.Partitioner
