/-
Module: TokenScan.Proofs.RingTiling
Purpose: A ring in splits is a tiling: the splits are numbered in ring order, each starts where the
  one before it has ended, they hold every token of the ring once, and they share its width as evenly
  as whole tokens allow. The width of a split is the difference of two quotients rounded down, so it
  is the rounded share or one more, and the widths telescope to that of the ring.
Main exports: Tiling, Partitioner.map_index_splits, Partitioner.splitRange_width_bounds,
  Partitioner.sum_width_splitRange, Partitioner.splits_tile
-/
import Mathlib
import TokenScan.Proofs.RingSplits

namespace TokenScan

/-- Splits that tile a range of tokens, in order and evenly. -/
structure Tiling (whole : TokenRange) (splits : List Split) : Prop where
  /-- The splits are numbered from zero in their order. -/
  numbered : splits.map (·.index.toNat) = List.range splits.length
  /-- The first split starts where the range does. -/
  first : splits.head?.map (·.range.lower) = some whole.lower
  /-- The last split ends where the range does. -/
  last : splits.getLast?.map (·.range.upper) = some whole.upper
  /-- No split is reversed. -/
  ordered : ∀ s ∈ splits, s.range.lower ≤ s.range.upper
  /-- Each split starts with the token after the last one of the split before. -/
  adjacent : splits.IsChain fun s next => next.range.lower = s.range.upper + 1
  /-- Each token of the range lies in one split and no other. -/
  single : ∀ t, whole.contains t = true → ∃ s, splits.filter (·.range.contains t) = [s]
  /-- The widths of the splits make up that of the range. -/
  complete : (splits.map (·.range.width)).sum = whole.width
  /-- No split is wider than another by more than one token. -/
  even : ∀ s ∈ splits, ∀ other ∈ splits, s.range.width ≤ other.range.width + 1

namespace Partitioner

variable (p : Partitioner) {n : Nat}

theorem width_splitRange (hn : 0 < n) (hle : (n : Int) ≤ p.ring.width) (i : Nat) :
    (p.splitRange n i).width = p.splitLower n (i + 1) - p.splitLower n i := by
  rw [p.splitRange_eq hn hle, TokenRange.width]
  lia

theorem map_index_splits (n : UInt64) :
    (p.splits n).map (·.index.toNat) = List.range n.toNat := by
  have hindex : ∀ i ∈ List.range n.toNat, (UInt64.ofNat i).toNat = id i := by
    intro i hi
    apply UInt64.toNat_ofNat_of_lt'
    exact (List.mem_range.1 hi).trans n.toNat_lt
  rw [splits, List.map_map, Function.comp_def, List.map_congr_left hindex, List.map_id]

/-- A split has the width of the ring divided by the number of splits, rounded down, or one more. -/
theorem splitRange_width_bounds (hn : 0 < n) (hle : (n : Int) ≤ p.ring.width) (i : Nat) :
    p.ring.width / n ≤ (p.splitRange n i).width ∧
      (p.splitRange n i).width ≤ p.ring.width / n + 1 := by
  have hn' : (0 : Int) < n := by exact_mod_cast hn
  have hnext : p.ring.width * (i + 1 : Nat) = p.ring.width * i + p.ring.width := by
    push_cast
    ring
  rw [p.width_splitRange hn hle]
  simp only [splitLower, hnext]
  generalize p.ring.width * i = start
  generalize p.ring.width = width
  have hstart := Int.emod_add_mul_ediv start n
  have hwidth := Int.emod_add_mul_ediv width n
  have hlow : start / n + width / n ≤ (start + width) / n := by
    apply (Int.le_ediv_iff_mul_le hn').2
    have := Int.emod_nonneg start hn'.ne'
    have := Int.emod_nonneg width hn'.ne'
    linarith
  have hhigh : (start + width) / n < start / n + width / n + 2 := by
    apply (Int.ediv_lt_iff_lt_mul hn').2
    have := Int.emod_lt_of_pos start hn'
    have := Int.emod_lt_of_pos width hn'
    linarith
  lia

/-- The widths of the splits before split `k` add up to where it starts. -/
theorem sum_width_splitRange (hn : 0 < n) (hle : (n : Int) ≤ p.ring.width) (k : Nat) :
    ((List.range k).map fun i => (p.splitRange n i).width).sum =
      p.splitLower n k - p.minToken := by
  induction k with
  | zero => simp
  | succ k ih =>
      rw [List.range_succ, List.map_append, List.sum_append, ih]
      simp only [List.map_cons, List.map_nil, List.sum_cons, List.sum_nil]
      rw [p.width_splitRange hn hle]
      ring

/-- The splits of a ring, however many, tile it evenly, and the bounds of each are handed over in
    their order. -/
theorem splits_tile {n : UInt64} (hn : n ≠ 0) :
    (p.splits n).length = n.toNat ∧
      (∀ i < n.toNat, p.splitLower n.toNat i ≤ p.splitLower n.toNat (i + 1) - 1) ∧
      Tiling ⟨p.minToken, p.maxToken⟩ (p.splits n) := by
  have hpos := toNat_pos_of_ne_zero hn
  have hle := p.toNat_le_width n
  have hordered : ∀ i, p.splitLower n.toNat i ≤ p.splitLower n.toNat (i + 1) - 1 := by
    intro i
    have := p.splitLower_lt_succ hpos hle i
    lia
  have hrange := p.splitRange_eq hpos hle
  have hlength : (p.splits n).length = n.toNat := by simp [splits]
  refine ⟨hlength, fun i _ => hordered i, ?_⟩
  constructor
  case numbered =>
    rw [hlength]
    exact p.map_index_splits n
  case first =>
    rw [splits, List.head?_map, List.head?_range, if_neg hpos.ne', Option.map_some, Option.map_some]
    rw [hrange, splitLower_zero]
  case last =>
    rw [splits, List.getLast?_map, List.getLast?_range, if_neg hpos.ne', Option.map_some,
      Option.map_some]
    rw [hrange, Nat.sub_add_cancel hpos, p.splitLower_self hpos, add_sub_cancel_right]
  case ordered =>
    intro s hs
    obtain ⟨i, -, rfl⟩ := List.mem_map.1 hs
    rw [hrange]
    exact hordered i
  case adjacent =>
    rw [splits, List.isChain_map, List.isChain_range]
    intro i _
    rw [hrange, hrange]
    exact (sub_add_cancel _ _).symm
  case single =>
    intro t ht
    apply p.filter_splits hn
    rwa [ring_eq]
  case complete =>
    rw [splits, List.map_map]
    have hsum := p.sum_width_splitRange hpos hle n.toNat
    rw [p.splitLower_self hpos] at hsum
    rw [TokenRange.width]
    simp only [Function.comp_def]
    rw [hsum]
    ring
  case even =>
    intro s hs other hother
    obtain ⟨i, -, rfl⟩ := List.mem_map.1 hs
    obtain ⟨j, -, rfl⟩ := List.mem_map.1 hother
    have hi := p.splitRange_width_bounds hpos hle i
    have hj := p.splitRange_width_bounds hpos hle j
    exact hi.2.trans (by linarith [hj.1])

/-- The ring of Murmur3 in seven splits: seven does not divide its width, and two of the splits are
    wider than the others. -/
theorem splits_tile_in_seven :
    (7 : UInt64) ≠ 0 ∧ (murmur3.splits 7).length = 7 ∧
      (∀ i < 7, murmur3.splitLower 7 i ≤ murmur3.splitLower 7 (i + 1) - 1) ∧
      Tiling ⟨-0x8000000000000000, 0x7fffffffffffffff⟩ (murmur3.splits 7) ∧
      (murmur3.splits 7).map (·.range.width) =
        [2635249153387078802, 2635249153387078802, 2635249153387078802, 2635249153387078803,
          2635249153387078802, 2635249153387078802, 2635249153387078803] := by
  have hseven : (7 : UInt64) ≠ 0 := by decide
  obtain ⟨hlength, hordered, htiling⟩ := murmur3.splits_tile hseven
  exact ⟨hseven, hlength, hordered, htiling, by decide⟩

end Partitioner

end TokenScan
