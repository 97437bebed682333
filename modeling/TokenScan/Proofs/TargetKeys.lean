/-
Module: TokenScan.Proofs.TargetKeys
Purpose: The targets of a table. Each is the key of a tuple with the token of that key, so what a plan
  of a table narrows the scan to is told by its keys alone.
Main exports: Key.resolveWith_eq_ok_iff, plannedKeys, mem_plannedKeys_iff_of_resolved,
  mem_plannedKeys_iff_of_targets, token_of_targets
-/
import TokenScan.Proofs.PlanTargets

namespace TokenScan

/-- A tuple resolves to its key with the token of that key. -/
theorem Key.resolveWith_eq_ok_iff {digest : Bytes → Bytes} {table : Table}
    {partitioner : Partitioner} {values : List String} {target : KeyTarget} :
    Key.resolveWith digest table partitioner values = .ok target ↔
      Key.encodeKey table values = .ok target.key ∧
        target.token = partitioner.tokenWith digest target.key := by
  rw [Key.resolveWith, except_map_eq_ok_iff]
  constructor
  · intro h
    rcases h with ⟨key, hkey, rfl⟩
    exact ⟨hkey, rfl⟩
  · intro h
    rcases h with ⟨hkey, htoken⟩
    refine ⟨target.key, hkey, ?_⟩
    rw [← htoken]

/-- The keys of the tuples that the pins allow. -/
def plannedKeys (table : Table) (filters : List Filter) : Set Bytes :=
  {key | ∃ tuple, KeyTuple filters table.keyNames tuple ∧ Key.encodeKey table tuple = .ok key}

section Targets

variable {digest : Bytes → Bytes} {table : Table} {partitioner : Partitioner}
  {filters : List Filter} {targets : List KeyTarget}

/-- Targets for all tuples have the planned keys. -/
theorem mem_plannedKeys_iff_of_resolved
    (hmem : ∀ target, target ∈ targets ↔ ∃ tuple, KeyTuple filters table.keyNames tuple ∧
      Key.resolveWith digest table partitioner tuple = .ok target) {key : Bytes} :
    key ∈ plannedKeys table filters ↔ ∃ target ∈ targets, target.key = key := by
  constructor
  · intro h
    rcases h with ⟨tuple, htuple, hkey⟩
    refine ⟨⟨key, partitioner.tokenWith digest key⟩, ?_, rfl⟩
    exact (hmem _).2 ⟨tuple, htuple, Key.resolveWith_eq_ok_iff.2 ⟨hkey, rfl⟩⟩
  · intro h
    rcases h with ⟨target, htarget, rfl⟩
    obtain ⟨tuple, htuple, hresolve⟩ := (hmem target).1 htarget
    exact ⟨tuple, htuple, (Key.resolveWith_eq_ok_iff.1 hresolve).1⟩

variable {splitCount : UInt64} {filterable : List String} {settings : Settings}
  (htargets : ((DataLayer.ofTableWith digest table partitioner splitCount filterable).targets
    settings filters).1 = .ok targets)

include htargets

/-- The targets that narrow a scan have the planned keys. -/
theorem mem_plannedKeys_iff_of_targets (hne : targets ≠ []) {key : Bytes} :
    key ∈ plannedKeys table filters ↔ ∃ target ∈ targets, target.key = key := by
  obtain ⟨-, -, hmem, -⟩ := DataLayer.targets_eq_ok hne htargets
  exact mem_plannedKeys_iff_of_resolved hmem

/-- The targets of a table have the tokens of their keys. -/
theorem token_of_targets {target : KeyTarget} (htarget : target ∈ targets) :
    target.token = partitioner.tokenWith digest target.key := by
  obtain ⟨-, -, hmem, -⟩ := DataLayer.targets_eq_ok (List.ne_nil_of_mem htarget) htargets
  obtain ⟨tuple, -, hresolve⟩ := (hmem target).1 htarget
  exact (Key.resolveWith_eq_ok_iff.1 hresolve).2

end Targets

end TokenScan
