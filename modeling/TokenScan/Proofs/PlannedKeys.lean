/-
Module: TokenScan.Proofs.PlannedKeys
Purpose: What the plan of a table is, said in sets. Each key column keeps the texts that every pin on
  it allows; the plan has the keys of all tuples over them, once each and in ring order, unless a
  column is free, a column keeps no text or the tuples are too many.
Main exports: Unnarrowed, DataLayer.targets_enforced, plan_of_first_push
-/
import Mathlib
import TokenScan.Proofs.PlannerHistory
import TokenScan.Proofs.TableColumns
import TokenScan.Proofs.TargetKeys

namespace TokenScan

/-- The pins leave the scan as wide as it was: a key column is free, or has contradictory pins, or
    there are more tuples than the limit. -/
def Unnarrowed (table : Table) (limit : UInt64) (filters : List Filter) : Prop :=
  (∃ column ∈ table.keyNames, ¬ IsPinned filters column) ∨
    (∃ column ∈ table.keyNames, allowedTexts filters column = ∅) ∨
      limit.toNat < tupleCount filters table.keyNames

/-- A tuple has a text for every column, so none may be without. -/
theorem KeyTuple.allowedTexts_ne_empty {filters : List Filter} {columns tuple : List String}
    (htuple : KeyTuple filters columns tuple) {column : String} (hcolumn : column ∈ columns) :
    allowedTexts filters column ≠ ∅ := by
  obtain ⟨text, -, hallowed⟩ := exists_partner_of_mem htuple hcolumn
  intro hempty
  rw [hempty] at hallowed
  exact hallowed

/-! ### Pins among the enforced filters -/

section Enforced

variable {layer : DataLayer} {filters : List Filter} {column : String}
  (hkey : layer.table.isKeyColumn column = true)

include hkey

/-- A pin on a key column is always enforced. -/
theorem DataLayer.mem_enforced_of_pins {f : Filter} (hpins : f.Pins column) :
    f ∈ layer.enforced filters ↔ f ∈ filters := by
  have henforces : layer.enforces f = true := by
    rw [Filter.Pins] at hpins
    simp [enforces, Table.pinsKey, hpins, hkey]
  rw [enforced, List.mem_filter]
  exact and_iff_left henforces

theorem DataLayer.isPinned_enforced :
    IsPinned (layer.enforced filters) column ↔ IsPinned filters column := by
  constructor
  · intro h
    rcases h with ⟨f, hf, hpins⟩
    exact ⟨f, (mem_enforced_of_pins hkey hpins).1 hf, hpins⟩
  · intro h
    rcases h with ⟨f, hf, hpins⟩
    exact ⟨f, (mem_enforced_of_pins hkey hpins).2 hf, hpins⟩

theorem DataLayer.allowedTexts_enforced :
    allowedTexts (layer.enforced filters) column = allowedTexts filters column := by
  ext text
  constructor
  · intro h f hf hpins
    exact h f ((mem_enforced_of_pins hkey hpins).2 hf) hpins
  · intro h f hf hpins
    exact h f ((mem_enforced_of_pins hkey hpins).1 hf) hpins

end Enforced

/-- Where the key names are those of key columns, what the planner gave back does not count. -/
theorem DataLayer.targets_enforced {layer : DataLayer} {settings : Settings} {filters : List Filter}
    (hkeys : ∀ column ∈ layer.table.keyNames, layer.table.isKeyColumn column = true) :
    layer.targets settings (layer.enforced filters) = layer.targets settings filters := by
  apply targets_congr
  intro column hcolumn
  have hkey := hkeys column hcolumn
  exact pinnedTexts_congr (isPinned_enforced hkey) (allowedTexts_enforced hkey)

/-- Pins on the key columns narrow a scan when none of the reasons against it holds. -/
theorem not_unnarrowed_iff {table : Table} {limit : UInt64} {filters : List Filter} :
    ¬ Unnarrowed table limit filters ↔
      (∀ column ∈ table.keyNames, IsPinned filters column) ∧
      (∀ column ∈ table.keyNames, allowedTexts filters column ≠ ∅) ∧
      tupleCount filters table.keyNames ≤ limit.toNat := by
  simp [Unnarrowed]

/-! ### The plan of a table -/

section Built

variable {keyspace name : String} {columns : List Column} {layer : DataLayer} {settings : Settings}
  {filters : List Filter} {targets : List KeyTarget}
  (htable : Table.ofColumns keyspace name columns = .ok layer.table)
  (htargets : (layer.targets settings (layer.enforced filters)).1 = .ok targets)

include htable htargets

/-- A plan with targets has every key column pinned, without contradiction, within the limit. -/
theorem not_unnarrowed_of_targets (hne : targets ≠ []) :
    ¬ Unnarrowed layer.table settings.maxCombinations filters := by
  have hkeys : ∀ column ∈ layer.table.keyNames, layer.table.isKeyColumn column = true :=
    fun column hcolumn => Table.isKeyColumn_of_mem_keyNames htable hcolumn
  rw [DataLayer.targets_enforced hkeys] at htargets
  obtain ⟨hpinned, hwithin, hmem, -⟩ := DataLayer.targets_eq_ok hne htargets
  obtain ⟨target, htarget⟩ := List.exists_mem_of_ne_nil targets hne
  obtain ⟨tuple, htuple, -⟩ := (hmem target).1 htarget
  rw [not_unnarrowed_iff]
  exact ⟨hpinned, fun column hcolumn => htuple.allowedTexts_ne_empty hcolumn, hwithin⟩

/-- Without a reason against it the plan has the targets of all tuples that the pins allow. -/
theorem targets_of_not_unnarrowed
    (hnarrowed : ¬ Unnarrowed layer.table settings.maxCombinations filters) :
    targets.Pairwise KeyTarget.Before ∧
      (∀ target, target ∈ targets ↔
        ∃ tuple, KeyTuple filters layer.table.keyNames tuple ∧ layer.resolve tuple = .ok target) ∧
      ∀ tuple, KeyTuple filters layer.table.keyNames tuple →
        ∃ target ∈ targets, layer.resolve tuple = .ok target := by
  have hkeys : ∀ column ∈ layer.table.keyNames, layer.table.isKeyColumn column = true :=
    fun column hcolumn => Table.isKeyColumn_of_mem_keyNames htable hcolumn
  have hcolumns : layer.table.keyNames ≠ [] := by
    intro hnil
    exact Table.keyColumns_ne_nil htable (List.map_eq_nil_iff.1 hnil)
  obtain ⟨hpinned, -, hwithin⟩ := not_unnarrowed_iff.1 hnarrowed
  rw [DataLayer.targets_enforced hkeys] at htargets
  exact DataLayer.targets_within_eq_ok hcolumns hpinned hwithin htargets

end Built

/-- Targets in ring order with the tokens of their keys have no key twice. -/
theorem nodup_keys_of_pairwise_before {token : Bytes → Token} {targets : List KeyTarget}
    (hsorted : targets.Pairwise KeyTarget.Before)
    (htoken : ∀ target ∈ targets, target.token = token target.key) :
    (targets.map KeyTarget.key).Nodup := by
  rw [List.Nodup, List.pairwise_map]
  apply hsorted.imp_of_mem
  intro a b ha hb hbefore hsame
  have hsameToken : a.token = b.token := by rw [htoken a ha, htoken b hb, hsame]
  have heq : a = b := by
    cases a
    cases b
    simp_all
  exact KeyTarget.Before.irrefl (heq ▸ hbefore)

/-- The first push of a planner decides its plan. For a table built from columns in any order: with a
    column free, a column without texts or more tuples than the limit nothing is narrowed, and
    otherwise the plan has, in strict ring order, each key of a tuple once and with its token. -/
theorem plan_of_first_push {keyspace name : String} {columns : List Column} {table : Table}
    (htable : Table.ofColumns keyspace name columns = .ok table) (digest : Bytes → Bytes)
    (partitioner : Partitioner) (splitCount : UInt64) (filterable : List String)
    (settings : Settings) (filters : List Filter) {targets : List KeyTarget}
    (hbuild :
      let layer := DataLayer.ofTableWith digest table partitioner splitCount filterable
      (((Planner.fresh settings).push layer filters).planner.build layer).answer = .ok targets) :
    table.keyColumns.Perm (columns.filter Column.isPartitionKey) ∧
      table.keyColumns.Pairwise (fun a b => a.position < b.position) ∧
      (Unnarrowed table settings.maxCombinations filters → targets = []) ∧
      (¬ Unnarrowed table settings.maxCombinations filters →
        targets.Pairwise KeyTarget.Before ∧ (targets.map KeyTarget.key).Nodup ∧
        (∀ tuple, KeyTuple filters table.keyNames tuple →
          ∃ key, Key.encodeKey table tuple = .ok key) ∧
        (∀ key, (∃ target ∈ targets, target.key = key) ↔ key ∈ plannedKeys table filters) ∧
        ∀ target ∈ targets, target.token = partitioner.tokenWith digest target.key) := by
  dsimp only at hbuild
  rw [Planner.build_of_first_push] at hbuild
  refine ⟨Table.keyColumns_perm htable, Table.pairwise_position htable, ?_, ?_⟩
  · intro hunnarrowed
    by_contra hne
    exact not_unnarrowed_of_targets htable hbuild hne hunnarrowed
  · intro hnarrowed
    obtain ⟨hsorted, hmem, hall⟩ := targets_of_not_unnarrowed htable hbuild hnarrowed
    have htoken : ∀ target ∈ targets, target.token = partitioner.tokenWith digest target.key :=
      fun target htarget => token_of_targets hbuild htarget
    refine ⟨hsorted, nodup_keys_of_pairwise_before hsorted htoken, ?_, ?_, htoken⟩
    · intro tuple htuple
      obtain ⟨target, -, hresolve⟩ := hall tuple htuple
      exact ⟨target.key, (Key.resolveWith_eq_ok_iff.1 hresolve).1⟩
    · intro key
      exact (mem_plannedKeys_iff_of_resolved hmem).symm

/-- Key columns declared out of order and pins that overlap in one text give one key. -/
theorem plan_of_first_push_of_overlapping_pins :
    ∃ table targets,
      Table.ofColumns "ks" "events" [⟨"site", .partitionKey, 1, .text⟩, ⟨"note", .value, 0, .text⟩,
        ⟨"id", .partitionKey, 0, .int⟩] = .ok table ∧
      (((Planner.fresh {}).push (.ofTableWith Hash.Md5.digest table .murmur3 1 [])
        [.isIn "id" [.int 1, .int 2], .compare .equal "site" (.text "x"), .isNull "note",
          .isIn "id" [.int 3, .int 2]]).planner.build
        (.ofTableWith Hash.Md5.digest table .murmur3 1 [])).answer = .ok targets ∧
      targets.map KeyTarget.key = [[0, 4, 0, 0, 0, 2, 0, 0, 1, 120, 0]] ∧
      ∀ key, key ∈ plannedKeys table [.isIn "id" [.int 1, .int 2],
          .compare .equal "site" (.text "x"), .isNull "note", .isIn "id" [.int 3, .int 2]] ↔
        key = [0, 4, 0, 0, 0, 2, 0, 0, 1, 120, 0] := by
  let table : Table := ⟨"ks", "events", [⟨"id", .partitionKey, 0, .int⟩,
    ⟨"site", .partitionKey, 1, .text⟩, ⟨"note", .value, 0, .text⟩]⟩
  let layer := DataLayer.ofTableWith Hash.Md5.digest table .murmur3 1 []
  let found : List KeyTarget := [⟨[0, 4, 0, 0, 0, 2, 0, 0, 1, 120, 0], -4208019290763983148⟩]
  have htable : Table.ofColumns "ks" "events" [⟨"site", .partitionKey, 1, .text⟩,
      ⟨"note", .value, 0, .text⟩, ⟨"id", .partitionKey, 0, .int⟩] = .ok table := by
    cbv
  have henforced : layer.enforced [.isIn "id" [.int 1, .int 2],
      .compare .equal "site" (.text "x"), .isNull "note", .isIn "id" [.int 3, .int 2]] =
      [.isIn "id" [.int 1, .int 2], .compare .equal "site" (.text "x"),
        .isIn "id" [.int 3, .int 2]] := by
    cbv
  have hbuild : (((Planner.fresh {}).push layer [.isIn "id" [.int 1, .int 2],
      .compare .equal "site" (.text "x"), .isNull "note",
      .isIn "id" [.int 3, .int 2]]).planner.build layer).answer = .ok found := by
    rw [Planner.build_of_first_push, henforced]
    rw [DataLayer.targets_of_steps 1 [["2", "x"]] found (by cbv) (by decide) (by cbv)
      (by decide +kernel) (by cbv)]
  refine ⟨table, found, htable, hbuild, rfl, ?_⟩
  intro key
  obtain ⟨-, -, hopen, hnarrowed⟩ :=
    plan_of_first_push htable Hash.Md5.digest .murmur3 1 [] {} _ hbuild
  have hne : found ≠ [] := List.cons_ne_nil _ _
  rw [← (hnarrowed fun hunnarrowed => hne (hopen hunnarrowed)).2.2.2.1 key]
  simp only [found, List.mem_singleton, exists_eq_left]
  exact eq_comm

end TokenScan
