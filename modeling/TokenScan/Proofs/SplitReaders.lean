/-
Module: TokenScan.Proofs.SplitReaders
Purpose: Which splits of a scan read the partition of a key. The splits tile the ring and each target
  carries the token of its own key, so one split reads a key that is scanned for and no split reads
  any other key.
Main exports: ScanPlan.IsScannedFor, ScanPlan.visits_and_selects_iff, ScanPlan.readersAt_of_scanned,
  ScanPlan.readersAt_of_not_scanned, Planner.Consistent.scan_targets, one_reader_of_scan
-/
import Mathlib
import TokenScan.Proofs.PlannerHistory
import TokenScan.Proofs.TargetKeys
import TokenScan.Proofs.TokenPlacement

namespace TokenScan

namespace ScanPlan

/-- The scan is for all keys, or this key is one of its targets. -/
def IsScannedFor (p : ScanPlan) (key : Bytes) : Prop :=
  p.isRestricted = true → ∃ target ∈ p.targets, target.key = key

theorem mem_targetsFor {p : ScanPlan} {s : Split} {target : KeyTarget} :
    target ∈ p.targetsFor s ↔ target ∈ p.targets ∧ s.range.contains target.token = true := by
  simp [targetsFor, KeyTarget.overlaps]

theorem mem_splitsToVisit {p : ScanPlan} {s : Split} :
    s ∈ p.splitsToVisit ↔ s ∈ p.splits ∧ (p.targets = [] ∨ p.targetsFor s ≠ []) := by
  simp only [splitsToVisit, List.mem_filter, isRestricted, Bool.or_eq_true, Bool.not_eq_true',
    decide_eq_false_iff_not, ne_eq, not_not, List.any_eq_true]
  apply and_congr_right
  intro _
  apply or_congr_right
  constructor
  · intro h
    rcases h with ⟨target, htarget, hoverlaps⟩
    exact List.ne_nil_of_mem (mem_targetsFor.2 ⟨htarget, hoverlaps⟩)
  · intro hne
    obtain ⟨target, hmem⟩ := List.exists_mem_of_ne_nil _ hne
    obtain ⟨htarget, hcontains⟩ := mem_targetsFor.1 hmem
    exact ⟨target, htarget, hcontains⟩

theorem skips_eq_false_iff {target : KeyTarget} {key : Bytes} {token : Token} :
    target.skips key token = false ↔ target.token = token ∧ target.key = key := by
  simp [KeyTarget.skips, KeyTarget.matchesKey]

variable {p : ScanPlan} {key : Bytes} {token : Token}

/-- A split reads a key when it holds the token of the key and the key is scanned for, provided that
    each target has the token of its key. -/
theorem visits_and_selects_iff
    (htoken : ∀ target ∈ p.targets, target.key = key → target.token = token) {s : Split} :
    (s ∈ p.splitsToVisit ∧ p.selects s key token = true) ↔
      s ∈ p.splits ∧ s.range.contains token = true ∧ p.IsScannedFor key := by
  rw [mem_splitsToVisit]
  by_cases hall : p.targets = []
  · have hnone : p.targetsFor s = [] := by simp [targetsFor, hall]
    have hopen : p.isRestricted = false := by simp [isRestricted, hall]
    simp [selects, hnone, hall, IsScannedFor, hopen]
  · have hclosed : p.isRestricted = true := by simp [isRestricted, hall]
    simp only [selects, hall, false_or, IsScannedFor, hclosed, forall_const, Bool.and_eq_true,
      Bool.or_eq_true, decide_eq_true_eq, List.any_eq_true, Bool.not_eq_true', skips_eq_false_iff]
    constructor
    · intro h
      rcases h with ⟨⟨hsplit, hvisit⟩, hcontains, hselected⟩
      obtain ⟨target, hmem, -, hkey⟩ := hselected.resolve_left hvisit
      exact ⟨hsplit, hcontains, target, (mem_targetsFor.1 hmem).1, hkey⟩
    · intro h
      rcases h with ⟨hsplit, hcontains, target, htarget, hkey⟩
      -- The target that asks for the key lies in the split with the key's own token.
      have hsame := htoken target htarget hkey
      have hmem : target ∈ p.targetsFor s := mem_targetsFor.2 ⟨htarget, hsame ▸ hcontains⟩
      exact ⟨⟨hsplit, List.ne_nil_of_mem hmem⟩, hcontains, .inr ⟨target, hmem, hsame, hkey⟩⟩

/-- The readers of a key that is scanned for are the splits that hold its token. -/
theorem readersAt_of_scanned
    (htoken : ∀ target ∈ p.targets, target.key = key → target.token = token)
    (hscanned : p.IsScannedFor key) :
    p.readersAt key token = p.splits.filter (·.range.contains token) := by
  rw [readersAt, splitsToVisit, List.filter_filter]
  refine List.filter_congr fun s hs => ?_
  have hiff := visits_and_selects_iff htoken (s := s)
  simp only [splitsToVisit, List.mem_filter, hs, true_and, hscanned, and_true] at hiff
  rw [Bool.eq_iff_iff, Bool.and_eq_true, and_comm]
  exact hiff

/-- A key that is not scanned for has no reader. -/
theorem readersAt_of_not_scanned
    (htoken : ∀ target ∈ p.targets, target.key = key → target.token = token)
    (hscanned : ¬ p.IsScannedFor key) : p.readersAt key token = [] := by
  rw [readersAt, List.filter_eq_nil_iff]
  intro s hvisit hselects
  exact hscanned ((visits_and_selects_iff htoken).1 ⟨hvisit, hselects⟩).2.2

end ScanPlan

/-! ### Plans of a table -/

/-- What a successful scan of a consistent planner holds. -/
theorem Planner.Consistent.scan_targets {layer : DataLayer} {p : Planner} (hp : p.Consistent layer)
    {plan : ScanPlan} (hscan : (p.scan layer).answer = .ok plan) :
    plan = p.scanOf layer plan.targets ∧
      ∃ planned, (layer.targets p.settings planned).1 = .ok plan.targets := by
  rw [scan_answer, except_map_eq_ok_iff] at hscan
  obtain ⟨targets, hbuild, rfl⟩ := hscan
  refine ⟨rfl, ?_⟩
  rcases hp.build_answer with hanswer | ⟨planned, found, -, hok, hanswer⟩
  · exact ⟨p.pushed, hanswer ▸ hbuild⟩
  · rw [hanswer] at hbuild
    exact ⟨layer.enforced planned, hbuild ▸ hok⟩

/-- Every key that is scanned for is read by one split, and no other key is read. The scan may come
    at the end of any history of requests, for any table, settings and number of splits, and of the
    digest behind Random only its length is used. Only the empty key under Random is left out, whose
    token is off the ring. -/
theorem one_reader_of_scan {digest : Bytes → Bytes} (hdigest : ∀ key, (digest key).length = 16)
    (table : Table) (partitioner : Partitioner) {splitCount : UInt64} (hcount : splitCount ≠ 0)
    (filterable : List String) (settings : Settings) (requests : List Request) {plan : ScanPlan}
    (hscan :
      let layer := DataLayer.ofTableWith digest table partitioner splitCount filterable
      (((Planner.fresh settings).run layer requests).scan layer).answer = .ok plan)
    {key : Bytes} (hkey : key ≠ [] ∨ partitioner = .murmur3) :
    let readers := plan.readersAt key (plan.partitioner.tokenWith digest key)
    (plan.isRestricted = false → ∃ s, readers = [s]) ∧
      (plan.isRestricted = true → (∃ target ∈ plan.targets, target.key = key) →
        ∃ s, readers = [s]) ∧
      (plan.isRestricted = true → (¬ ∃ target ∈ plan.targets, target.key = key) →
        readers = []) := by
  intro readers
  obtain ⟨hplan, planned, hok⟩ := (Planner.run_consistent _ settings requests).scan_targets hscan
  have hpartitioner : plan.partitioner = partitioner := by rw [hplan]; rfl
  have hsplits : plan.splits = partitioner.splits splitCount := by rw [hplan]; rfl
  have htoken : ∀ target ∈ plan.targets, target.key = key →
      target.token = plan.partitioner.tokenWith digest key := by
    rintro target htarget rfl
    rw [hpartitioner]
    exact token_of_targets hok htarget
  have hone : plan.IsScannedFor key → ∃ s, readers = [s] := by
    intro hscanned
    have hring := partitioner.tokenWith_mem_ring hdigest hkey
    obtain ⟨s, hs⟩ := partitioner.filter_splits hcount hring
    refine ⟨s, ?_⟩
    simp only [readers]
    rw [ScanPlan.readersAt_of_scanned htoken hscanned, hsplits, hpartitioner, hs]
  refine ⟨?_, ?_, ?_⟩
  · intro hopen
    exact hone fun hclosed => absurd hclosed (by simp [hopen])
  · intro _ htarget
    exact hone fun _ => htarget
  · intro hclosed hnone
    exact ScanPlan.readersAt_of_not_scanned htoken fun hscanned => hnone (hscanned hclosed)

/-- A plan for the key 1, a pruning that fails and a wider push are followed by a scan in three
    splits. It has one reader for the key 1 and none for the key 3. -/
theorem one_reader_of_scan_after_two_pushes :
    ∃ plan : ScanPlan,
      (((Planner.fresh {}).run (.ofTableWith Hash.Md5.digest eventTable .murmur3 3 [])
        [.push [.isIn "id" [.int 1]], .build, .prune ["note", "other"],
          .push [.isIn "id" [.int 2, .int 1], .isNull "note"]]).scan
        (.ofTableWith Hash.Md5.digest eventTable .murmur3 3 [])).answer = .ok plan ∧
      plan.isRestricted = true ∧
      (∃ s, plan.readersAt [0, 0, 0, 1]
        (plan.partitioner.tokenWith Hash.Md5.digest [0, 0, 0, 1]) = [s]) ∧
      plan.readersAt [0, 0, 0, 3]
        (plan.partitioner.tokenWith Hash.Md5.digest [0, 0, 0, 3]) = [] := by
  let layer := DataLayer.ofTableWith Hash.Md5.digest eventTable .murmur3 3 []
  let before : List Request := [.push [.isIn "id" [.int 1]], .build, .prune ["note", "other"]]
  let last : Request := .push [.isIn "id" [.int 2, .int 1], .isNull "note"]
  let found : List KeyTarget :=
    [⟨[0, 0, 0, 1], -4069959284402364209⟩, ⟨[0, 0, 0, 2], -3248873570005575792⟩]
  let p := (Planner.fresh {}).run layer (before ++ [last])
  have hpushed : p.pushed = [.isIn "id" [.int 2, .int 1]] := by
    rw [Planner.run_pushed]
    cbv
  have hplan : p.plan = none := by
    simp only [p, last, Planner.run_append, Planner.run_singleton, Planner.after,
      Planner.push_planner, Planner.run_pushed]
    rw [if_neg]
    cbv
    exact Bool.false_ne_true
  have hfound : (p.build layer).answer = .ok found := by
    rw [Planner.build_of_unplanned hplan, hpushed, Planner.run_settings]
    rw [DataLayer.targets_of_steps 2 [["1"], ["2"]] found (by cbv) (by decide) (by cbv)
      (by decide +kernel) (by cbv)]
  have hscan : (p.scan layer).answer = .ok (p.scanOf layer found) := by
    rw [Planner.scan_answer, hfound]
    rfl
  have hread : ∀ key : Bytes, key ≠ [] → _ := fun key hkey =>
    one_reader_of_scan Hash.Md5.length_digest eventTable .murmur3 (by decide) [] {}
      (before ++ [last]) hscan (.inl hkey)
  refine ⟨_, hscan, rfl, ?_, ?_⟩
  · exact (hread [0, 0, 0, 1] (by decide)).2.1 rfl ⟨_, List.mem_cons_self, rfl⟩
  · apply (hread [0, 0, 0, 3] (by decide)).2.2 rfl
    intro h
    rcases h with ⟨target, htarget, hkey⟩
    revert hkey
    simp only [Planner.scanOf, found, List.mem_cons, List.not_mem_nil, or_false] at htarget
    rcases htarget with rfl | rfl <;> decide

end TokenScan
