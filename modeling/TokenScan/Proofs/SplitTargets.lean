/-
Module: TokenScan.Proofs.SplitTargets
Purpose: How the targets of a plan are dealt out to its splits. The targets come in the order of their
  tokens and so do the splits, so the targets of the first splits are the first of the targets: taken
  together they are all targets before the token where the next split starts. Over the whole ring
  nothing is lost but a target whose token is off the ring, which only the empty key has.
Main exports: filter_token_append, Partitioner.flatMap_splitRange, Partitioner.flatMap_splits,
  Partitioner.tokenWith_mem_ring_iff, ScanPlan.splitsToVisit_eq, targets_dealt_to_splits
-/
import Mathlib
import TokenScan.Proofs.RingTiling
import TokenScan.Proofs.SplitReaders

namespace TokenScan

/-! ### Runs of a list in ring order -/

section Runs

variable {targets : List KeyTarget}
  (hsorted : targets.Pairwise fun a b => a.token ≤ b.token)

include hsorted

/-- In ring order the targets before a token come first. -/
theorem filter_token_split (mid : Token) :
    (targets.filter fun t => t.token < mid) ++ (targets.filter fun t => mid ≤ t.token) =
      targets := by
  induction targets with
  | nil => rfl
  | cons t rest ih =>
      obtain ⟨hfirst, hrest⟩ := List.pairwise_cons.1 hsorted
      by_cases hmid : t.token < mid
      · rw [List.filter_cons_of_pos (by simpa using hmid),
          List.filter_cons_of_neg (by simpa using hmid), List.cons_append, ih hrest]
      · -- Nothing after `t` comes before the token either.
        have hmid := not_lt.1 hmid
        have hlate : ∀ u ∈ t :: rest, mid ≤ u.token := by
          rw [List.forall_mem_cons]
          exact ⟨hmid, fun u hu => hmid.trans (hfirst u hu)⟩
        have hnone : (t :: rest).filter (fun u => u.token < mid) = [] := by
          apply List.filter_eq_nil_iff.2
          intro u hu
          simpa using hlate u hu
        have hall : (t :: rest).filter (fun u => mid ≤ u.token) = t :: rest := by
          apply List.filter_eq_self.2
          intro u hu
          simpa using hlate u hu
        rw [hnone, hall, List.nil_append]

/-- A run of tokens followed by the next run is one run. -/
theorem filter_token_append {low mid high : Token} (hlow : low ≤ mid) (hhigh : mid ≤ high) :
    (targets.filter fun t => low ≤ t.token ∧ t.token < mid) ++
        (targets.filter fun t => mid ≤ t.token ∧ t.token < high) =
      targets.filter fun t => low ≤ t.token ∧ t.token < high := by
  have hrun := filter_token_split (hsorted.filter fun t => low ≤ t.token ∧ t.token < high) mid
  rw [List.filter_filter, List.filter_filter] at hrun
  rw [← hrun]
  apply congrArg₂
  · apply List.filter_congr
    intro t _
    rw [Bool.eq_iff_iff]
    simp only [decide_eq_true_eq, Bool.and_eq_true]
    lia
  · apply List.filter_congr
    intro t _
    rw [Bool.eq_iff_iff]
    simp only [decide_eq_true_eq, Bool.and_eq_true]
    lia

/-! ### Targets over the splits of a ring -/

namespace Partitioner

variable (p : Partitioner)

/-- The targets of the splits before split `k` are those from the start of the ring to where split `k`
    starts. -/
theorem flatMap_splitRange {n : Nat} (hn : 0 < n) (hle : (n : Int) ≤ p.ring.width) (k : Nat) :
    ((List.range k).flatMap fun i => targets.filter (·.overlaps (p.splitRange n i))) =
      targets.filter fun t => p.minToken ≤ t.token ∧ t.token < p.splitLower n k := by
  have hsplit : ∀ i, targets.filter (·.overlaps (p.splitRange n i)) =
      targets.filter fun t => p.splitLower n i ≤ t.token ∧ t.token < p.splitLower n (i + 1) := by
    intro i
    apply List.filter_congr
    intro t _
    rw [Bool.eq_iff_iff, decide_eq_true_eq, KeyTarget.overlaps]
    exact p.contains_splitRange_iff hn hle
  induction k with
  | zero =>
      rw [List.range_zero, List.flatMap_nil, splitLower_zero]
      symm
      apply List.filter_eq_nil_iff.2
      intro t _
      simp only [decide_eq_true_eq]
      lia
  | succ k ih =>
      rw [List.range_succ, List.flatMap_append, ih, List.flatMap_cons, List.flatMap_nil,
        List.append_nil, hsplit]
      apply filter_token_append hsorted
      · rw [← p.splitLower_zero n]
        exact p.splitLower_mono hn (Nat.zero_le k)
      · exact p.splitLower_mono hn (Nat.le_succ k)

/-- Over all splits the targets are those whose tokens are on the ring, in their order. -/
theorem flatMap_splits {n : UInt64} (hn : n ≠ 0) :
    ((p.splits n).flatMap fun s => targets.filter (·.overlaps s.range)) =
      targets.filter fun t => p.ring.contains t.token := by
  have hpos := toNat_pos_of_ne_zero hn
  rw [splits, List.flatMap_map,
    p.flatMap_splitRange hsorted hpos (p.toNat_le_width n), p.splitLower_self hpos]
  apply List.filter_congr
  intro t _
  rw [Bool.eq_iff_iff, ring_eq]
  simp only [TokenRange.contains, decide_eq_true_eq, Bool.and_eq_true]
  lia

end Partitioner

end Runs

/-- Only the empty key under Random has its token off the ring, just below it. -/
theorem Partitioner.tokenWith_mem_ring_iff {digest : Bytes → Bytes}
    (hdigest : ∀ key, (digest key).length = 16) (p : Partitioner) (key : Bytes) :
    p.ring.contains (p.tokenWith digest key) ↔ key ≠ [] ∨ p = .murmur3 := by
  constructor
  · intro hring
    by_contra hoff
    obtain ⟨hkey, hp⟩ := not_or.1 hoff
    have hkey := not_not.1 hkey
    subst hkey
    cases p with
    | murmur3 => exact hp rfl
    | random =>
        have hbelow : randomToken digest [] = -1 := rfl
        rw [tokenWith, hbelow] at hring
        exact absurd hring (by decide)
  · exact p.tokenWith_mem_ring hdigest

/-! ### Splits that have targets -/

/-- Leaving out the empty lists does not change what lists hold together. -/
theorem flatMap_filter_ne_nil {α β : Type} (f : α → List β) (xs : List α) :
    (xs.filter fun x => !(f x).isEmpty).flatMap f = xs.flatMap f := by
  induction xs with
  | nil => rfl
  | cons x xs ih =>
      rw [List.filter_cons, List.flatMap_cons]
      cases hx : f x with
      | nil => simpa [hx] using ih
      | cons b bs => simp [hx, ih]

/-- There are no more lists with members than members. -/
theorem length_filter_ne_nil_le {α β : Type} (f : α → List β) (xs : List α) :
    (xs.filter fun x => !(f x).isEmpty).length ≤ (xs.flatMap f).length := by
  induction xs with
  | nil => rfl
  | cons x xs ih =>
      rw [List.filter_cons, List.flatMap_cons, List.length_append]
      cases hx : f x with
      | nil => simpa [hx] using ih
      | cons b bs =>
          simp only [List.isEmpty_cons, Bool.not_false, if_true, List.length_cons]
          omega

namespace ScanPlan

variable {p : ScanPlan}

/-- A restricted plan visits the splits that have targets. -/
theorem splitsToVisit_eq (hrestricted : p.isRestricted = true) :
    p.splitsToVisit = p.splits.filter fun s => !(p.targetsFor s).isEmpty := by
  have hne : p.targets ≠ [] := by simpa [isRestricted] using hrestricted
  rw [splitsToVisit]
  apply List.filter_congr
  intro s hs
  have hvisit := mem_splitsToVisit (p := p) (s := s)
  simp only [splitsToVisit, List.mem_filter, hs, true_and, hne, false_or] at hvisit
  rw [Bool.eq_iff_iff, hvisit]
  simp

/-- The splits that are visited have all the targets that the splits have. -/
theorem flatMap_splitsToVisit (hrestricted : p.isRestricted = true) :
    p.splitsToVisit.flatMap p.targetsFor = p.splits.flatMap p.targetsFor := by
  rw [splitsToVisit_eq hrestricted, flatMap_filter_ne_nil]

/-- No more splits are visited than there are splits, or targets in the splits. -/
theorem length_splitsToVisit_le (hrestricted : p.isRestricted = true) :
    p.splitsToVisit.length ≤ min p.splits.length (p.splits.flatMap p.targetsFor).length := by
  rw [splitsToVisit_eq hrestricted]
  exact le_min (List.length_filter_le _ _) (length_filter_ne_nil_le _ _)

end ScanPlan

/-! ### Plans of a table -/

/-- The targets of a plan are dealt out to its splits in order and once each. The plan may be scanned
    for at the end of any history of requests; of the targets only that of the empty key under Random
    has no split, since its token is off the ring. A restricted plan visits the splits that have
    targets, so no more than it has splits or keys. -/
theorem targets_dealt_to_splits {digest : Bytes → Bytes}
    (hdigest : ∀ key, (digest key).length = 16) (table : Table) (partitioner : Partitioner)
    {splitCount : UInt64} (hcount : splitCount ≠ 0) (filterable : List String)
    (settings : Settings) (requests : List Request) {plan : ScanPlan}
    (hscan :
      let layer := DataLayer.ofTableWith digest table partitioner splitCount filterable
      (((Planner.fresh settings).run layer requests).scan layer).answer = .ok plan) :
    let onRing := plan.targets.filter fun t => t.key ≠ [] ∨ partitioner = .murmur3
    plan.splits.map (·.index.toNat) = List.range splitCount.toNat ∧
      plan.splits.flatMap plan.targetsFor = onRing ∧
      (plan.isRestricted = true →
        plan.splitsToVisit = plan.splits.filter (fun s => !(plan.targetsFor s).isEmpty) ∧
        plan.splitsToVisit.length ≤ min splitCount.toNat plan.targets.length ∧
        plan.splitsToVisit.flatMap plan.targetsFor = onRing) := by
  intro onRing
  obtain ⟨hplan, planned, hok⟩ := (Planner.run_consistent _ settings requests).scan_targets hscan
  have hsplits : plan.splits = partitioner.splits splitCount := by rw [hplan]; rfl
  have hsorted : plan.targets.Pairwise fun a b => a.token ≤ b.token := by
    apply (DataLayer.pairwise_of_targets hok).imp
    intro a b hbefore
    rcases hbefore with hless | ⟨hsame, -⟩
    · exact hless.le
    · exact hsame.le
  have hring : plan.targets.filter (fun t => partitioner.ring.contains t.token) = onRing := by
    apply List.filter_congr
    intro t ht
    rw [Bool.eq_iff_iff, decide_eq_true_eq, token_of_targets hok ht]
    exact partitioner.tokenWith_mem_ring_iff hdigest t.key
  have hall : plan.splits.flatMap plan.targetsFor = onRing := by
    rw [hsplits, ← hring]
    exact partitioner.flatMap_splits hsorted hcount
  refine ⟨?_, hall, ?_⟩
  · rw [hsplits]
    exact partitioner.map_index_splits splitCount
  · intro hrestricted
    refine ⟨ScanPlan.splitsToVisit_eq hrestricted, ?_, ?_⟩
    · apply (ScanPlan.length_splitsToVisit_le hrestricted).trans
      apply min_le_min
      · rw [hsplits]
        simp [Partitioner.splits]
      · rw [hall]
        exact List.length_filter_le _ _
    · rw [ScanPlan.flatMap_splitsToVisit hrestricted, hall]

/-- A table with one text for its key. -/
def labelTable : Table :=
  ⟨"ks", "labels", [⟨"id", .partitionKey, 0, .text⟩]⟩

/-- The keys of the empty text and of `a` under Random in three splits: the first has no split, the
    second has one. -/
theorem targets_dealt_to_splits_without_empty_key :
    ∃ plan : ScanPlan,
      (((Planner.fresh {}).run (.ofTableWith Hash.Md5.digest labelTable .random 3 [])
        [.prune ["id"], .push [.isIn "id" [.text "a", .text ""]]]).scan
        (.ofTableWith Hash.Md5.digest labelTable .random 3 [])).answer = .ok plan ∧
      plan.targets = [⟨[], -1⟩, ⟨[97], 16955237001963240173058271559858726497⟩] ∧
      plan.isRestricted = true ∧
      plan.splits.flatMap plan.targetsFor = [⟨[97], 16955237001963240173058271559858726497⟩] ∧
      plan.splitsToVisit.length ≤ min 3 2 ∧
      plan.splitsToVisit.flatMap plan.targetsFor =
        [⟨[97], 16955237001963240173058271559858726497⟩] := by
  let layer := DataLayer.ofTableWith Hash.Md5.digest labelTable .random 3 []
  let pin : Filter := .isIn "id" [.text "a", .text ""]
  let requests : List Request := [.prune ["id"], .push [pin]]
  let found : List KeyTarget := [⟨[], -1⟩, ⟨[97], 16955237001963240173058271559858726497⟩]
  let p := (Planner.fresh {}).run layer requests
  have htargets : (layer.targets {} [pin]).1 = .ok found := by
    rw [DataLayer.targets_of_steps 2 [[""], ["a"]] found (by cbv) (by decide) (by cbv)
      (by decide +kernel) (by cbv)]
  have hpushed : p.pushed = [pin] := by
    rw [Planner.run_pushed]
    cbv
  have hplan : p.plan = none := by cbv
  have hscan : (p.scan layer).answer = .ok (p.scanOf layer found) := by
    rw [Planner.scan_answer, Planner.build_of_unplanned hplan, hpushed, Planner.run_settings,
      htargets]
    rfl
  obtain ⟨-, hall, hvisited⟩ := targets_dealt_to_splits Hash.Md5.length_digest labelTable .random
    (show (3 : UInt64) ≠ 0 by decide) [] {} requests hscan
  obtain ⟨-, hcount, hsame⟩ := hvisited rfl
  exact ⟨_, hscan, rfl, rfl, hall, hcount, hsame⟩

end TokenScan
