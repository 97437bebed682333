/-
Module: TokenScan.Proofs.PinCompleteness
Purpose: Whether a narrowed scan finds every row that satisfies its pins. A row satisfies a pin when
  some constant of the pin stands for the bytes in the row, however the constant is spelled; the
  planner intersects spellings. Rows are lost exactly where pins on one column agree on a value and
  have no spelling of it in common.
Main exports: PinsAdmit, SharedSpelling, sharedSpelling_of_one_pin, mem_plannedKeys_iff_of_spellings,
  no_row_lost_iff
-/
import Mathlib
import TokenScan.Proofs.KeyLayout
import TokenScan.Proofs.PlannerHistory
import TokenScan.Proofs.TargetKeys

namespace TokenScan

/-- Every pin on the column has a constant that stands for these bytes. -/
def PinsAdmit (pushed : List Filter) (column : Column) (bytes : Bytes) : Prop :=
  ∀ f ∈ pushed, f.Pins column.name →
    ∃ literal ∈ f.shape.literals, Key.encodeLiteral column literal.render = .ok bytes

/-- The pins on the column have in common a text that stands for these bytes. -/
def SharedSpelling (pushed : List Filter) (column : Column) (bytes : Bytes) : Prop :=
  ∃ text ∈ allowedTexts pushed column.name, Key.encodeLiteral column text = .ok bytes

theorem SharedSpelling.pinsAdmit {pushed : List Filter} {column : Column} {bytes : Bytes}
    (h : SharedSpelling pushed column bytes) : PinsAdmit pushed column bytes := by
  obtain ⟨text, hallowed, hbytes⟩ := h
  intro f hf hpins
  obtain ⟨literal, hliteral, rfl⟩ := hallowed f hf hpins
  exact ⟨literal, hliteral, hbytes⟩

/-- A single pin shares its spellings with nobody. -/
theorem sharedSpelling_of_one_pin {pushed : List Filter} {column : Column} {f : Filter}
    (hf : f ∈ pushed) (hpins : f.Pins column.name)
    (hone : ∀ g ∈ pushed, g.Pins column.name → g = f) {bytes : Bytes}
    (hadmitted : PinsAdmit pushed column bytes) : SharedSpelling pushed column bytes := by
  obtain ⟨literal, hliteral, hbytes⟩ := hadmitted f hf hpins
  refine ⟨literal.render, ?_, hbytes⟩
  intro g hg hgpins
  obtain rfl := hone g hg hgpins
  exact ⟨literal, hliteral, rfl⟩

/-- Bytes with shared spellings are the bytes of components that are so spelled. -/
theorem forall₂_sharedSpelling_iff {pushed : List Filter} {columns : List Column}
    {values : List Bytes} :
    List.Forall₂ (SharedSpelling pushed) columns values ↔
      ∃ components, List.Forall₂ Key.Spells columns components ∧
        List.Forall₂ (fun column c => c.value ∈ allowedTexts pushed column.name) columns
          components ∧
        components.map Key.Component.bytes = values := by
  induction columns generalizing values with
  | nil => simp [eq_comm]
  | cons column columns ih =>
      simp only [List.forall₂_cons_left_iff, ih]
      constructor
      · intro h
        rcases h with ⟨bytes, rest, ⟨text, hallowed, hbytes⟩, ⟨components, hspells, hall, rfl⟩, rfl⟩
        let c : Key.Component := ⟨column.name, text, bytes⟩
        have hc : Key.Spells column c := ⟨rfl, hbytes⟩
        exact ⟨c :: components, ⟨c, components, hc, hspells, rfl⟩,
          ⟨c, components, hallowed, hall, rfl⟩, rfl⟩
      · intro h
        rcases h with ⟨_, ⟨c, components, hc, hspells, rfl⟩, ⟨_, _, hallowed, hall, heq⟩, rfl⟩
        obtain ⟨rfl, rfl⟩ := List.cons.inj heq
        exact ⟨c.bytes, _, ⟨c.value, hallowed, hc.2⟩, ⟨components, hspells, hall, rfl⟩, rfl⟩

/-- The planned keys are composed of bytes with shared spellings. -/
theorem mem_plannedKeys_iff_of_spellings {table : Table} {pushed : List Filter} {key : Bytes} :
    key ∈ plannedKeys table pushed ↔
      ∃ values, List.Forall₂ (SharedSpelling pushed) table.keyColumns values ∧
        (∀ bytes ∈ values, Key.Fits values.length bytes) ∧ Key.layout values = key := by
  simp only [plannedKeys, Set.mem_ofPred_eq, Key.encodeKey_eq_ok_iff, Key.compose_eq_ok_iff,
    forall₂_sharedSpelling_iff, KeyTuple, Table.keyNames]
  constructor
  · intro h
    rcases h with ⟨_, htuple, components, hspells, rfl, hfits, rfl⟩
    rw [List.forall₂_map_left_iff, List.forall₂_map_right_iff] at htuple
    refine ⟨_, ⟨components, hspells, htuple, rfl⟩, ?_, rfl⟩
    simpa using hfits
  · intro h
    rcases h with ⟨_, ⟨components, hspells, htuple, rfl⟩, hfits, rfl⟩
    refine ⟨components.map Key.Component.value, ?_, components, hspells, rfl, ?_, rfl⟩
    · rw [List.forall₂_map_left_iff, List.forall₂_map_right_iff]
      exact htuple
    · simpa using hfits

/-- When all keys of admitted values are planned, the values of each column have shared spellings:
    such a value makes a key with the values of any planned key for the other columns. -/
theorem sharedSpelling_of_complete {table : Table} {pushed : List Filter}
    (hsome : (plannedKeys table pushed).Nonempty)
    (hcomplete : ∀ values, List.Forall₂ (PinsAdmit pushed) table.keyColumns values →
      (∀ bytes ∈ values, Key.Fits values.length bytes) →
      Key.layout values ∈ plannedKeys table pushed)
    {column : Column} (hcolumn : column ∈ table.keyColumns) {bytes : Bytes}
    (hadmitted : PinsAdmit pushed column bytes) (hfits : Key.Fits table.keyColumns.length bytes) :
    SharedSpelling pushed column bytes := by
  obtain ⟨key, hkey⟩ := hsome
  obtain ⟨planned, hplanned, hplannedFits, -⟩ := mem_plannedKeys_iff_of_spellings.1 hkey
  have hbase : List.Forall₂ (PinsAdmit pushed) table.keyColumns planned :=
    hplanned.imp fun _ _ hshared => hshared.pinsAdmit
  obtain ⟨values, hvalues, hpair, hfrom⟩ := exists_replaced hbase hcolumn hadmitted
  have hcount : table.keyColumns.length = values.length := hvalues.length_eq
  have hvaluesFit : ∀ value ∈ values, Key.Fits values.length value := by
    intro value hvalue
    rw [← hcount]
    rcases hfrom value hvalue with rfl | hkept
    · exact hfits
    · rw [hbase.length_eq]
      exact hplannedFits value hkept
  obtain ⟨found, hfound, hfoundFits, hsame⟩ :=
    mem_plannedKeys_iff_of_spellings.1 (hcomplete values hvalues hvaluesFit)
  obtain rfl := Key.layout_injective (hfound.length_eq.symm.trans hcount) hfoundFits hvaluesFit hsame
  exact (List.forall₂_iff_zip.1 hfound).2 hpair

/-- When admitted values have shared spellings, all their keys are planned. -/
theorem complete_of_sharedSpelling {table : Table} {pushed : List Filter}
    (hshared : ∀ column ∈ table.keyColumns, ∀ bytes, PinsAdmit pushed column bytes →
      Key.Fits table.keyColumns.length bytes → SharedSpelling pushed column bytes)
    {values : List Bytes} (hvalues : List.Forall₂ (PinsAdmit pushed) table.keyColumns values)
    (hfits : ∀ bytes ∈ values, Key.Fits values.length bytes) :
    Key.layout values ∈ plannedKeys table pushed := by
  refine mem_plannedKeys_iff_of_spellings.2 ⟨values, ?_, hfits, rfl⟩
  have hcount : table.keyColumns.length = values.length := hvalues.length_eq
  rw [List.forall₂_iff_zip] at hvalues ⊢
  refine ⟨hcount, ?_⟩
  intro column bytes hpair
  obtain ⟨hcolumn, hbytes⟩ := List.of_mem_zip hpair
  apply hshared column hcolumn bytes (hvalues.2 hpair)
  rw [hcount]
  exact hfits bytes hbytes

/-- A narrowed scan after one push loses no row that its pins admit exactly when the pins on each key
    column have a spelling in common for every value that all of them admit. Values too long to stand
    in the key are no values of the table. -/
theorem no_row_lost_iff (digest : Bytes → Bytes) (table : Table) (partitioner : Partitioner)
    (splitCount : UInt64) (filterable : List String) (settings : Settings) (filters : List Filter)
    {plan : ScanPlan}
    (hscan :
      let layer := DataLayer.ofTableWith digest table partitioner splitCount filterable
      (((Planner.fresh settings).push layer filters).planner.scan layer).answer = .ok plan)
    (hrestricted : plan.isRestricted = true) :
    (∀ (row : List Key.Component) (key : Bytes),
      List.Forall₂ (fun column c => PinsAdmit plan.pushed column c.bytes) table.keyColumns row →
      Key.compose row = .ok key → ∃ target ∈ plan.targets, target.key = key) ↔
    ∀ column ∈ table.keyColumns, ∀ bytes, PinsAdmit plan.pushed column bytes →
      Key.Fits table.keyColumns.length bytes → SharedSpelling plan.pushed column bytes := by
  obtain ⟨hpushed, htargets⟩ := Planner.scan_of_first_push hscan
  rw [← hpushed] at htargets
  have hne : plan.targets ≠ [] := by simpa [ScanPlan.isRestricted] using hrestricted
  simp only [← mem_plannedKeys_iff_of_targets htargets hne]
  rw [Key.forall_compose_iff]
  constructor
  · intro hcomplete column hcolumn bytes hadmitted hfits
    obtain ⟨target, htarget⟩ := List.exists_mem_of_ne_nil plan.targets hne
    have hsome : (plannedKeys table plan.pushed).Nonempty :=
      ⟨target.key, (mem_plannedKeys_iff_of_targets htargets hne).2 ⟨target, htarget, rfl⟩⟩
    exact sharedSpelling_of_complete hsome hcomplete hcolumn hadmitted hfits
  · intro hshared values hvalues hfits
    exact complete_of_sharedSpelling hshared hvalues hfits

/-- One pin with two spellings of a number loses no row with that number. -/
theorem no_row_lost_of_two_spellings :
    ∃ plan : ScanPlan,
      (((Planner.fresh {}).push (.ofTableWith Hash.Md5.digest eventTable .murmur3 1 [])
        [.isIn "id" [.text "1", .text "01"]]).planner.scan
        (.ofTableWith Hash.Md5.digest eventTable .murmur3 1 [])).answer = .ok plan ∧
      plan.isRestricted = true ∧
      ∀ (row : List Key.Component) (key : Bytes),
        List.Forall₂ (fun column c => PinsAdmit plan.pushed column c.bytes) eventTable.keyColumns
          row →
        Key.compose row = .ok key → ∃ target ∈ plan.targets, target.key = key := by
  let layer := DataLayer.ofTableWith Hash.Md5.digest eventTable .murmur3 1 []
  let pin : Filter := .isIn "id" [.text "1", .text "01"]
  let found : List KeyTarget := [⟨[0, 0, 0, 1], -4069959284402364209⟩]
  have henforced : layer.enforced [pin] = [pin] := by cbv
  have htargets : (layer.targets {} [pin]).1 = .ok found := by
    rw [DataLayer.targets_of_steps 2 [["01"], ["1"]] (found ++ found) (by cbv) (by decide) (by cbv)
      (by decide +kernel) (by cbv)]
  let plan := ((Planner.fresh {}).push layer [pin]).planner.scanOf layer found
  have hscan : (((Planner.fresh {}).push layer [pin]).planner.scan layer).answer = .ok plan :=
    Planner.scan_of_first_targets (henforced.symm ▸ htargets)
  have hpushed : plan.pushed = [pin] := by cbv
  refine ⟨plan, hscan, rfl, ?_⟩
  apply (no_row_lost_iff Hash.Md5.digest eventTable .murmur3 1 [] {} [pin] hscan rfl).2
  intro column hcolumn bytes hadmitted _
  have hid : column = ⟨"id", .partitionKey, 0, .int⟩ := by
    simpa [eventTable, Table.keyColumns, Column.isPartitionKey] using hcolumn
  have hpins : pin.Pins column.name := by
    rw [hid]
    rfl
  rw [hpushed] at hadmitted ⊢
  apply sharedSpelling_of_one_pin List.mem_cons_self hpins _ hadmitted
  intro g hg _
  exact List.mem_singleton.1 hg

/-- Two pins that agree on 1 and 2, but spell 1 differently, keep the key of 2 alone. The row with the
    key of 1 satisfies both, and nothing is left to filter. -/
theorem row_lost_of_different_spellings :
    ∃ plan : ScanPlan,
      (((Planner.fresh {}).push (.ofTableWith Hash.Md5.digest eventTable .murmur3 1 [])
        [.isIn "id" [.text "1", .text "2"], .isIn "id" [.text "01", .text "2"]]).planner.scan
        (.ofTableWith Hash.Md5.digest eventTable .murmur3 1 [])).answer = .ok plan ∧
      plan.isRestricted = true ∧ plan.residual = [] ∧
      ∃ (row : List Key.Component) (key : Bytes),
        List.Forall₂ (fun column c => PinsAdmit plan.pushed column c.bytes) eventTable.keyColumns
          row ∧
        Key.compose row = .ok key ∧ ¬ ∃ target ∈ plan.targets, target.key = key := by
  let layer := DataLayer.ofTableWith Hash.Md5.digest eventTable .murmur3 1 []
  let pins : List Filter :=
    [.isIn "id" [.text "1", .text "2"], .isIn "id" [.text "01", .text "2"]]
  let found : List KeyTarget := [⟨[0, 0, 0, 2], -3248873570005575792⟩]
  have henforced : layer.enforced pins = pins := by cbv
  have htargets : (layer.targets {} pins).1 = .ok found := by
    rw [DataLayer.targets_of_steps 1 [["2"]] found (by cbv) (by decide) (by cbv)
      (by decide +kernel) (by cbv)]
  let plan := ((Planner.fresh {}).push layer pins).planner.scanOf layer found
  have hscan : (((Planner.fresh {}).push layer pins).planner.scan layer).answer = .ok plan :=
    Planner.scan_of_first_targets (henforced.symm ▸ htargets)
  have hpushed : plan.pushed = pins := by cbv
  have hkeyColumns : eventTable.keyColumns = [⟨"id", .partitionKey, 0, .int⟩] := by decide
  refine ⟨plan, hscan, rfl, by cbv, [⟨"id", "1", [0, 0, 0, 1]⟩], [0, 0, 0, 1], ?_, rfl, ?_⟩
  · rw [hpushed, hkeyColumns]
    refine .cons ?_ .nil
    intro f hf _
    rcases List.mem_pair.1 hf with rfl | rfl
    · exact ⟨.text "1", List.mem_cons_self, by decide +kernel⟩
    · exact ⟨.text "01", List.mem_cons_self, by decide +kernel⟩
  · intro h
    rcases h with ⟨target, htarget, hkey⟩
    obtain rfl := List.mem_singleton.1 htarget
    exact absurd hkey (by decide)

end TokenScan
