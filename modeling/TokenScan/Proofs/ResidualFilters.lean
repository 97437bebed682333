/-
Module: TokenScan.Proofs.ResidualFilters
Purpose: The filters that a scan leaves to the row scanner. A plan that narrows nothing leaves all of
  them. A plan that narrows the scan leaves out those that pin a key column, and may do so because
  one tuple stands behind each of its keys, and that one tuple has in every pinned column a text that
  the pin compares the column with.
Main exports: Filter.PinsKeyOf, Planner.residual_of_answer, KeyTuple.allows, residual_of_scan
-/
import Mathlib
import TokenScan.Proofs.PlannerHistory
import TokenScan.Proofs.TableColumns
import TokenScan.Proofs.TargetKeys

namespace TokenScan

/-- The filter pins a key column of the table. -/
def Filter.PinsKeyOf (f : Filter) (table : Table) : Prop :=
  ∃ column, f.Pins column ∧ table.isKeyColumn column = true

theorem Table.pinsKey_iff {table : Table} {f : Filter} :
    table.pinsKey f = true ↔ f.PinsKeyOf table := by
  simp [pinsKey, Filter.PinsKeyOf, Filter.Pins, Option.any_eq_true]

instance (f : Filter) (table : Table) : Decidable (f.PinsKeyOf table) :=
  decidable_of_iff _ Table.pinsKey_iff

theorem Planner.residual_of_answer {p : Planner} {layer : DataLayer} {plan : ScanPlan}
    (hscan : (p.scan layer).answer = .ok plan) :
    plan.residual =
      if plan.targets = [] then plan.pushed
      else plan.pushed.filter fun f => ¬ f.PinsKeyOf layer.table := by
  rw [scan_answer, except_map_eq_ok_iff] at hscan
  obtain ⟨targets, -, rfl⟩ := hscan
  have hkept : ∀ f ∈ p.pushed, (!layer.table.pinsKey f) = decide (¬ f.PinsKeyOf layer.table) := by
    intro f _
    rw [Bool.eq_iff_iff, Bool.not_eq_true', decide_eq_true_eq, ← Table.pinsKey_iff,
      Bool.not_eq_true]
  simp only [scanOf, List.filter_congr hkept]

/-- The text that a tuple has for a column is allowed by every pin on the column. -/
theorem KeyTuple.allows {filters : List Filter} {columns tuple : List String}
    (htuple : KeyTuple filters columns tuple) {f : Filter} (hf : f ∈ filters) {column text : String}
    (hpins : f.Pins column) (hplace : (column, text) ∈ columns.zip tuple) : f.Allows text := by
  have hallowed : text ∈ allowedTexts filters column := (List.forall₂_iff_zip.1 htuple).2 hplace
  exact hallowed f hf hpins

/-- The filters of a scan after the first push are left to the row scanner or met by the keys. When
    nothing is narrowed all are left; otherwise those that pin a key column are dropped, and behind
    each target stands one tuple that encodes to its key and has, for each column that a dropped
    filter pins, the text of a constant of that filter. -/
theorem residual_of_scan (digest : Bytes → Bytes) (table : Table) (partitioner : Partitioner)
    (splitCount : UInt64) (filterable : List String) (settings : Settings) (filters : List Filter)
    {plan : ScanPlan}
    (hscan :
      let layer := DataLayer.ofTableWith digest table partitioner splitCount filterable
      (((Planner.fresh settings).push layer filters).planner.scan layer).answer = .ok plan) :
    (plan.isRestricted = false → plan.residual = plan.pushed) ∧
      (plan.isRestricted = true →
        plan.residual = plan.pushed.filter (fun f => ¬ f.PinsKeyOf table) ∧
        ∀ target ∈ plan.targets, ∃ tuple,
          Key.encodeKey table tuple = .ok target.key ∧
          tuple.length = table.keyNames.length ∧
          ∀ f ∈ plan.pushed, ∀ column, f.Pins column → table.isKeyColumn column = true →
            column ∈ table.keyNames ∧
            ∀ text, (column, text) ∈ table.keyNames.zip tuple →
              ∃ literal ∈ f.shape.literals, literal.render = text) := by
  have hresidual := Planner.residual_of_answer hscan
  obtain ⟨hpushed, htargets⟩ := Planner.scan_of_first_push hscan
  constructor
  · intro hopen
    rw [hresidual, if_pos]
    simpa [ScanPlan.isRestricted] using hopen
  · intro hrestricted
    have hne : plan.targets ≠ [] := by simpa [ScanPlan.isRestricted] using hrestricted
    refine ⟨by rw [hresidual, if_neg hne]; rfl, ?_⟩
    intro target htarget
    obtain ⟨-, -, hmem, -⟩ := DataLayer.targets_eq_ok hne htargets
    obtain ⟨tuple, htuple, hresolve⟩ := (hmem target).1 htarget
    refine ⟨tuple, (Key.resolveWith_eq_ok_iff.1 hresolve).1, htuple.length_eq.symm, ?_⟩
    intro f hf column hpins hkey
    refine ⟨Table.mem_keyNames_of_isKeyColumn hkey, ?_⟩
    intro text hplace
    rw [hpushed] at hf
    exact htuple.allows hf hpins hplace

/-- Two pins on the key that agree on one text, and a test for null that the row scanner makes. The
    test is left, and the tuple behind the key has the text that both pins allow. -/
theorem residual_of_scan_with_two_pins :
    ∃ plan : ScanPlan,
      (((Planner.fresh {}).push (.ofTableWith Hash.Md5.digest eventTable .murmur3 1 ["note"])
        [.isIn "id" [.int 2, .int 1], .isNull "note",
          .compare .equal "id" (.int 2)]).planner.scan
        (.ofTableWith Hash.Md5.digest eventTable .murmur3 1 ["note"])).answer = .ok plan ∧
      plan.pushed = [.isIn "id" [.int 2, .int 1], .isNull "note", .compare .equal "id" (.int 2)] ∧
      plan.isRestricted = true ∧ plan.residual = [.isNull "note"] ∧
      ∃ tuple, Key.encodeKey eventTable tuple = .ok [0, 0, 0, 2] ∧
        ∀ text, ("id", text) ∈ eventTable.keyNames.zip tuple → text = "2" := by
  let layer := DataLayer.ofTableWith Hash.Md5.digest eventTable .murmur3 1 ["note"]
  let filters : List Filter :=
    [.isIn "id" [.int 2, .int 1], .isNull "note", .compare .equal "id" (.int 2)]
  let found : List KeyTarget := [⟨[0, 0, 0, 2], -3248873570005575792⟩]
  have henforced : layer.enforced filters = filters := by cbv
  have htargets : (layer.targets {} filters).1 = .ok found := by
    rw [DataLayer.targets_of_steps 1 [["2"]] found (by cbv) (by decide) (by cbv)
      (by decide +kernel) (by cbv)]
  let plan := ((Planner.fresh {}).push layer filters).planner.scanOf layer found
  have hscan : (((Planner.fresh {}).push layer filters).planner.scan layer).answer = .ok plan :=
    Planner.scan_of_first_targets (henforced.symm ▸ htargets)
  have hpushed : plan.pushed = filters := by cbv
  obtain ⟨-, hclosed⟩ :=
    residual_of_scan Hash.Md5.digest eventTable .murmur3 1 ["note"] {} filters hscan
  obtain ⟨hresidual, hbehind⟩ := hclosed rfl
  refine ⟨plan, hscan, hpushed, rfl, ?_, ?_⟩
  · rw [hresidual, hpushed]
    decide
  · obtain ⟨tuple, hkey, -, hmeets⟩ := hbehind _ List.mem_cons_self
    refine ⟨tuple, hkey, ?_⟩
    intro text hplace
    have hequal : Filter.compare .equal "id" (.int 2) ∈ plan.pushed := by
      rw [hpushed]
      decide
    obtain ⟨literal, hliteral, rfl⟩ := (hmeets _ hequal "id" rfl (by decide)).2 text hplace
    obtain rfl := List.mem_singleton.1 hliteral
    cbv

end TokenScan
