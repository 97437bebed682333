/-
Module: TokenScan.Proofs.KeyTuples
Purpose: The tuples over pinned texts and their number. A tuple takes one allowed text for each
  column in turn, every such tuple is built, and the number that is checked beforehand is the true
  one as far as it can be told.
Main exports: KeyTuple, tupleCount, mem_tuples, length_tuples, combinationCount_eq,
  combinationCount_of_pinned, combinationCount_of_not_pinned, combinations_of_sets,
  length_combinations, mem_combinations
-/
import Mathlib.Algebra.BigOperators.Ring.List
import TokenScan.Plan.Combination
import TokenScan.Proofs.PinnedValues
import TokenScan.Proofs.Traversal

namespace TokenScan

/-- The tuple has, for each column in turn, a text that all pins on the column allow. -/
def KeyTuple (filters : List Filter) (columns : List String) (tuple : List String) : Prop :=
  List.Forall₂ (fun column text => text ∈ allowedTexts filters column) columns tuple

/-- The true number of tuples over some columns. -/
noncomputable def tupleCount (filters : List Filter) (columns : List String) : Nat :=
  (columns.map fun column => (allowedTexts filters column).ncard).prod

/-- The tuples over some sets take one member of each. -/
theorem mem_tuples {sets : List TextSet} {tuple : List String} :
    tuple ∈ tuples sets ↔ List.Forall₂ (fun texts text => text ∈ texts) sets tuple := by
  induction sets generalizing tuple with
  | nil => simp [tuples]
  | cons texts rest ih =>
      simp only [tuples, List.mem_flatMap, List.mem_map, ih, List.forall₂_cons_left_iff]
      constructor
      · intro h
        rcases h with ⟨text, htext, tail, htail, rfl⟩
        exact ⟨text, tail, htext, htail, rfl⟩
      · intro h
        rcases h with ⟨text, tail, htext, htail, rfl⟩
        exact ⟨text, htext, tail, htail, rfl⟩

/-- There are as many tuples as the sizes of the sets multiply to. -/
theorem length_tuples (sets : List TextSet) : (tuples sets).length = (sets.map List.length).prod := by
  induction sets with
  | nil => rfl
  | cons texts rest ih => simp [tuples, List.length_flatMap, ih]

/-- Cutting a count off before it is multiplied again does not show after the next cut. -/
theorem min_mul_min (count factor : Nat) :
    min (min count maxCount * factor) maxCount = min (count * factor) maxCount := by
  rcases Nat.eq_zero_or_pos factor with rfl | hfactor
  · simp
  · rcases Nat.le_total count maxCount with hle | hge
    · rw [Nat.min_eq_left hle]
    · have hcut : maxCount ≤ maxCount * factor := Nat.le_mul_of_pos_right _ hfactor
      have hfull : maxCount * factor ≤ count * factor := Nat.mul_le_mul_right _ hge
      rw [Nat.min_eq_right hge, Nat.min_eq_right hcut, Nat.min_eq_right (hcut.trans hfull)]

/-- The count is that of the sizes multiplied, cut off once; there is none for an unpinned column. -/
theorem combinationCount_eq (pins : Pins) (columns : List String) :
    combinationCount pins columns =
      (columns.mapM pins.texts?).map fun sets => min (sets.map List.length).prod maxCount := by
  -- The fold is generalised over the count that it has reached.
  have hfold : ∀ (cs : List String) (count : Nat),
      cs.foldlM (fun count column =>
          (pins.texts? column).map fun texts => min (count * texts.length) maxCount)
          (min count maxCount) =
        (cs.mapM pins.texts?).map fun sets => min (count * (sets.map List.length).prod) maxCount := by
    intro cs
    induction cs with
    | nil => simp
    | cons c cs ih =>
        intro count
        rw [List.foldlM_cons, List.mapM_cons]
        cases htexts : pins.texts? c with
        | none => simp
        | some texts =>
            simp only [Option.map_some, Option.bind_eq_bind, Option.bind_some, min_mul_min, ih]
            cases cs.mapM pins.texts? with
            | none => simp
            | some sets => simp [Nat.mul_assoc]
  have hone : min 1 maxCount = 1 := by decide
  simpa [hone, combinationCount] using hfold columns 1

/-- The sets of some columns are those that the filters pin, column by column. -/
theorem mapM_texts?_ofFilters {filters : List Filter} {columns : List String} {sets : List TextSet} :
    columns.mapM (Pins.ofFilters filters columns).texts? = some sets ↔
      List.Forall₂ (fun column texts => pinnedTexts filters column = some texts) columns sets := by
  rw [option_mapM_eq_some_iff, List.forall₂_iff_zip, List.forall₂_iff_zip]
  refine and_congr_right fun _ => ?_
  constructor
  · intro h column texts hmem
    rw [← texts?_ofFilters (List.of_mem_zip hmem).1]
    exact h hmem
  · intro h column texts hmem
    rw [texts?_ofFilters (List.of_mem_zip hmem).1]
    exact h hmem

/-- When all columns are pinned, each has its set. -/
theorem exists_sets {filters : List Filter} {columns : List String}
    (hpinned : ∀ column ∈ columns, IsPinned filters column) :
    ∃ sets, List.Forall₂ (fun column texts => pinnedTexts filters column = some texts) columns
      sets := by
  have hfound : ∀ column ∈ columns, ∃ texts, pinnedTexts filters column = some texts := by
    intro column hcolumn
    rw [← Option.ne_none_iff_exists']
    exact fun hnone => pinnedTexts_eq_none_iff.1 hnone (hpinned column hcolumn)
  obtain ⟨sets, hsets⟩ := exists_mapM_eq_some hfound
  exact ⟨sets, option_mapM_eq_some_iff.1 hsets⟩

section Sets

variable {filters : List Filter} {columns : List String} {sets : List TextSet}
  (hsets : List.Forall₂ (fun column texts => pinnedTexts filters column = some texts) columns sets)

include hsets

/-- The sizes of the sets multiply to the number of tuples. -/
theorem prod_length_sets : (sets.map List.length).prod = tupleCount filters columns := by
  induction hsets with
  | nil => rfl
  | cons htexts _ ih =>
      rw [List.map_cons, List.prod_cons, ih, length_pinnedTexts htexts]
      simp [tupleCount]

/-- A tuple over the sets is a tuple of texts that the pins allow. -/
theorem mem_tuples_sets {tuple : List String} :
    tuple ∈ tuples sets ↔ KeyTuple filters columns tuple := by
  rw [mem_tuples]
  unfold KeyTuple
  induction hsets generalizing tuple with
  | nil => simp
  | cons htexts _ ih =>
      simp only [List.forall₂_cons_left_iff, mem_pinnedTexts htexts, ih]

end Sets

/-- The count over pinned columns is the true number of tuples, as far as it can be told. -/
theorem combinationCount_of_pinned {filters : List Filter} {columns : List String}
    (hpinned : ∀ column ∈ columns, IsPinned filters column) :
    combinationCount (Pins.ofFilters filters columns) columns =
      some (min (tupleCount filters columns) maxCount) := by
  obtain ⟨sets, hsets⟩ := exists_sets hpinned
  rw [combinationCount_eq, mapM_texts?_ofFilters.2 hsets, Option.map_some, prod_length_sets hsets]

/-- There is no count when a column is not pinned. -/
theorem combinationCount_of_not_pinned {filters : List Filter} {columns : List String}
    {column : String} (hcolumn : column ∈ columns) (hfree : ¬ IsPinned filters column) :
    combinationCount (Pins.ofFilters filters columns) columns = none := by
  rw [combinationCount_eq, Option.map_eq_none_iff, option_mapM_eq_none_iff]
  refine ⟨column, hcolumn, ?_⟩
  rw [texts?_ofFilters hcolumn, pinnedTexts_eq_none_iff]
  exact hfree

/-- The combinations over some columns are the tuples over their sets. An empty set, for which nothing
    is built, leaves no tuple over the sets either. -/
theorem combinations_of_sets {pins : Pins} {columns : List String} {sets : List TextSet}
    (hne : columns ≠ []) (hsets : columns.mapM pins.texts? = some sets) :
    combinations pins columns = tuples sets := by
  rw [combinations, hsets]
  cases sets with
  | nil =>
      have hlength := (option_mapM_eq_some_iff.1 hsets).length_eq
      exact absurd (List.length_eq_zero_iff.1 hlength) hne
  | cons first rest =>
      dsimp only
      split
      · next hempty =>
          obtain ⟨texts, htexts, hnil⟩ := List.any_eq_true.1 hempty
          have hzero : 0 ∈ (first :: rest).map List.length :=
            List.mem_map.2 ⟨texts, htexts, List.length_eq_zero_iff.2 (List.isEmpty_iff.1 hnil)⟩
          rw [eq_comm, ← List.length_eq_zero_iff, length_tuples, List.prod_eq_zero hzero]
      · rfl

/-- As many combinations are formed as the pins allow, and none without columns. -/
theorem length_combinations {filters : List Filter} {columns : List String} (hne : columns ≠ [])
    (hpinned : ∀ column ∈ columns, IsPinned filters column) :
    (combinations (Pins.ofFilters filters columns) columns).length = tupleCount filters columns := by
  obtain ⟨sets, hsets⟩ := exists_sets hpinned
  rw [combinations_of_sets hne (mapM_texts?_ofFilters.2 hsets), length_tuples, prod_length_sets hsets]

/-- The combinations over pinned columns are all tuples of texts that the pins allow. -/
theorem mem_combinations {filters : List Filter} {columns : List String} (hne : columns ≠ [])
    (hpinned : ∀ column ∈ columns, IsPinned filters column) {tuple : List String} :
    tuple ∈ combinations (Pins.ofFilters filters columns) columns ↔
      KeyTuple filters columns tuple := by
  obtain ⟨sets, hsets⟩ := exists_sets hpinned
  rw [combinations_of_sets hne (mapM_texts?_ofFilters.2 hsets), mem_tuples_sets hsets]

/-- Without columns there are no combinations. -/
@[simp] theorem combinations_nil (pins : Pins) : combinations pins [] = [] := rfl

theorem length_combinations_le {filters : List Filter} {columns : List String}
    (hpinned : ∀ column ∈ columns, IsPinned filters column) :
    (combinations (Pins.ofFilters filters columns) columns).length ≤ tupleCount filters columns := by
  by_cases hne : columns = []
  · subst hne
    exact Nat.zero_le _
  · exact (length_combinations hne hpinned).le

end TokenScan
