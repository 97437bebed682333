/-
Module: TokenScan.Proofs.RingSplits
Purpose: The splits of a ring tile it. The bounds of the splits come from a division that need not
  come out even, so that they neither leave a gap nor overlap is a matter of monotonicity: the first
  token of split `i` grows strictly with `i`, from the first token of the ring to one past its last.
Main exports: ring_eq, splitLower_strictMono, contains_splitRange_iff, exists_splitRange,
  splitRange_unique, filter_splits
-/
import Mathlib.Data.List.Nodup
import Mathlib.Tactic.Linarith
import Mathlib.Tactic.Ring
import TokenScan.Ring.Split

namespace TokenScan.Partitioner

/-- The bounds of a ring are given in order. -/
theorem ring_eq (p : Partitioner) : p.ring = ⟨p.minToken, p.maxToken⟩ := by
  cases p <;> rfl

/-- Every ring has at least as many tokens as there are 64-bit numbers. -/
theorem pow_le_width (p : Partitioner) : (2 : Int) ^ 64 ≤ p.ring.width := by
  cases p <;> decide

/-- A number of splits never exceeds the number of tokens. -/
theorem toNat_le_width (p : Partitioner) (n : UInt64) : (n.toNat : Int) ≤ p.ring.width := by
  have hn : n.toNat < 2 ^ 64 := n.toNat_lt
  have hw := p.pow_le_width
  have hcast : (n.toNat : Int) < 2 ^ 64 := by exact_mod_cast hn
  exact hcast.le.trans hw

theorem toNat_pos_of_ne_zero {n : UInt64} (hn : n ≠ 0) : 0 < n.toNat := by
  apply Nat.pos_of_ne_zero
  intro hzero
  exact hn (UInt64.toNat_inj.1 hzero)

/-- The first split starts where the ring does. -/
@[simp] theorem splitLower_zero (p : Partitioner) (n : Nat) : p.splitLower n 0 = p.minToken := by
  simp [splitLower]

/-- The split after the last would start just past the ring. -/
theorem splitLower_self (p : Partitioner) {n : Nat} (hn : 0 < n) :
    p.splitLower n n = p.maxToken + 1 := by
  have hn' : (n : Int) ≠ 0 := by omega
  rw [splitLower, Int.mul_ediv_cancel _ hn', TokenRange.width, ring_eq]
  dsimp only
  ring

/-- Later splits start no earlier. -/
theorem splitLower_mono (p : Partitioner) {n i j : Nat} (hn : 0 < n) (hij : i ≤ j) :
    p.splitLower n i ≤ p.splitLower n j := by
  have hwidth : 0 ≤ p.ring.width := le_trans (by decide) p.pow_le_width
  have hmul : p.ring.width * i ≤ p.ring.width * j :=
    mul_le_mul_of_nonneg_left (by exact_mod_cast hij) hwidth
  have hdiv := Int.ediv_le_ediv (by exact_mod_cast hn : (0 : Int) < n) hmul
  simpa [splitLower] using hdiv

/-- With no more splits than tokens, each split has a token of its own. -/
theorem splitLower_lt_succ (p : Partitioner) {n : Nat} (hn : 0 < n) (hle : (n : Int) ≤ p.ring.width)
    (i : Nat) : p.splitLower n i < p.splitLower n (i + 1) := by
  have hn' : (0 : Int) < n := by exact_mod_cast hn
  have hstep : p.ring.width * i + n * 1 ≤ p.ring.width * (i + 1 : Nat) := by
    push_cast
    linarith
  have hdiv := Int.ediv_le_ediv hn' hstep
  rw [Int.add_mul_ediv_left _ _ hn'.ne'] at hdiv
  simp only [splitLower]
  lia

/-- The range of a split is never reversed. -/
theorem splitRange_eq (p : Partitioner) {n : Nat} (hn : 0 < n) (hle : (n : Int) ≤ p.ring.width)
    (i : Nat) : p.splitRange n i = ⟨p.splitLower n i, p.splitLower n (i + 1) - 1⟩ := by
  have hlt := p.splitLower_lt_succ hn hle i
  rw [splitRange, TokenRange.closed, if_pos (by lia)]

/-- A split holds the tokens from its own first to before the first of the next. -/
theorem contains_splitRange_iff (p : Partitioner) {n : Nat} (hn : 0 < n)
    (hle : (n : Int) ≤ p.ring.width) {i : Nat} {t : Token} :
    (p.splitRange n i).contains t ↔ p.splitLower n i ≤ t ∧ t < p.splitLower n (i + 1) := by
  rw [p.splitRange_eq hn hle]
  simp only [TokenRange.contains, Bool.and_eq_true, decide_eq_true_eq]
  lia

/-- A token before the start of split `k` lies in one of the splits before it. -/
theorem exists_split_below (p : Partitioner) {n : Nat} {t : Token} (hmin : p.minToken ≤ t) (k : Nat)
    (hk : t < p.splitLower n k) :
    ∃ i < k, p.splitLower n i ≤ t ∧ t < p.splitLower n (i + 1) := by
  induction k with
  | zero =>
      rw [splitLower_zero] at hk
      exact absurd hmin (not_le.2 hk)
  | succ k ih =>
      by_cases hbelow : t < p.splitLower n k
      · obtain ⟨i, hi, hmem⟩ := ih hbelow
        exact ⟨i, by omega, hmem⟩
      · exact ⟨k, Nat.lt_succ_self k, not_lt.1 hbelow, hk⟩

/-- Every token of the ring lies in a split. -/
theorem exists_splitRange (p : Partitioner) {n : Nat} (hn : 0 < n) (hle : (n : Int) ≤ p.ring.width)
    {t : Token} (ht : p.ring.contains t) : ∃ i < n, (p.splitRange n i).contains t := by
  rw [ring_eq] at ht
  simp only [TokenRange.contains, Bool.and_eq_true, decide_eq_true_eq] at ht
  have hlast : t < p.splitLower n n := by
    rw [p.splitLower_self hn]
    exact Int.lt_add_one_of_le ht.2
  obtain ⟨i, hi, hmem⟩ := p.exists_split_below ht.1 n hlast
  exact ⟨i, hi, (p.contains_splitRange_iff hn hle).2 hmem⟩

/-- No token lies in two splits. -/
theorem splitRange_unique (p : Partitioner) {n : Nat} (hn : 0 < n) (hle : (n : Int) ≤ p.ring.width)
    {i j : Nat} {t : Token} (hi : (p.splitRange n i).contains t)
    (hj : (p.splitRange n j).contains t) : i = j := by
  rw [p.contains_splitRange_iff hn hle] at hi hj
  -- A split that comes later starts no earlier than the one after the first.
  rcases Nat.lt_trichotomy i j with hlt | heq | hgt
  · have := p.splitLower_mono hn (show i + 1 ≤ j from hlt)
    lia
  · exact heq
  · have := p.splitLower_mono hn (show j + 1 ≤ i from hgt)
    lia

/-- Exactly one split holds a token of the ring. -/
theorem filter_splits (p : Partitioner) {n : UInt64} (hn : n ≠ 0) {t : Token}
    (ht : p.ring.contains t) : ∃ s, (p.splits n).filter (·.range.contains t) = [s] := by
  have hpos := toNat_pos_of_ne_zero hn
  have hle := p.toNat_le_width n
  obtain ⟨i, hi, hmem⟩ := p.exists_splitRange hpos hle ht
  refine ⟨⟨UInt64.ofNat i, p.splitRange n.toNat i⟩, ?_⟩
  have honly : (List.range n.toNat).filter (fun j => (p.splitRange n.toNat j).contains t) = [i] := by
    have hiff : ∀ j ∈ List.range n.toNat, (p.splitRange n.toNat j).contains t = (j == i) := by
      intro j _
      rw [Bool.eq_iff_iff, beq_iff_eq]
      constructor
      · exact fun hj => p.splitRange_unique hpos hle hj hmem
      · rintro rfl
        exact hmem
    rw [List.filter_congr hiff, List.filter_beq,
      List.count_eq_one_of_mem List.nodup_range (List.mem_range.2 hi)]
    rfl
  rw [splits, List.filter_map]
  simp only [Function.comp_def, honly, List.map_cons, List.map_nil]

end TokenScan.Partitioner
