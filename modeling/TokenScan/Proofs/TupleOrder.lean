/-
Module: TokenScan.Proofs.TupleOrder
Purpose: The combinations over any columns of a map of pins, which may name a column more than once.
  They stand in the order of their texts, the first column deciding first, and each of them stands
  once; extending the tuples column by column gives the same list. The count agrees with their number
  as far as it can be told, also where an empty set comes after the count has stopped growing.
Main exports: extendedBy, tuples_eq_foldl, pairwise_tuples, combinations_of_columns
-/
import Mathlib
import TokenScan.Proofs.KeyTuples
import TokenScan.Proofs.PinMaps
import TokenScan.Proofs.TextOrder

namespace TokenScan

/-- Each of the tuples so far, extended by each text. -/
def extendedBy (fronts : List (List String)) (texts : TextSet) : List (List String) :=
  fronts.flatMap fun front => texts.map fun text => front ++ [text]

/-- The tuples over some sets are what comes of extending the empty tuple set by set. -/
theorem tuples_eq_foldl (sets : List TextSet) : tuples sets = sets.foldl extendedBy [[]] := by
  -- The fold is generalised over the tuples that it has reached.
  have hfold : ∀ (rest : List TextSet) (fronts : List (List String)),
      rest.foldl extendedBy fronts = fronts.flatMap fun front => (tuples rest).map (front ++ ·) := by
    intro rest
    induction rest with
    | nil => simp [tuples]
    | cons texts rest ih =>
        intro fronts
        rw [List.foldl_cons, ih]
        simp [extendedBy, tuples, List.flatMap_assoc, List.flatMap_map, List.map_flatMap,
          Function.comp_def]
  simp [hfold]

/-- Tuples over increasing sets are increasing, the first place deciding first. -/
theorem pairwise_tuples {sets : List TextSet} (hsets : ∀ texts ∈ sets, texts.Pairwise (· < ·)) :
    (tuples sets).Pairwise (· < ·) := by
  induction sets with
  | nil => simp [tuples]
  | cons texts rest ih =>
      obtain ⟨htexts, hrest⟩ := List.forall_mem_cons.1 hsets
      rw [tuples, List.pairwise_flatMap]
      constructor
      · intro text _
        rw [List.pairwise_map]
        exact (ih hrest).imp fun hless => List.cons_lt_cons_iff.2 (.inr ⟨rfl, hless⟩)
      · refine htexts.imp ?_
        intro first second hless tuple htuple other hother
        obtain ⟨tail, -, rfl⟩ := List.mem_map.1 htuple
        obtain ⟨tail', -, rfl⟩ := List.mem_map.1 hother
        exact List.cons_lt_cons_iff.2 (.inl hless)

/-- The sets of some columns are their entries in the map. -/
theorem mapM_texts?_eq_some_iff {pins : Pins} (hpins : pins.WellFormed) {columns : List String}
    {sets : List TextSet} : columns.mapM pins.texts? = some sets ↔
      List.Forall₂ (fun column texts => (column, texts) ∈ pins) columns sets := by
  simp only [option_mapM_eq_some_iff, Pins.texts?_eq_some_iff hpins]

theorem mapM_texts?_eq_none_iff {pins : Pins} {columns : List String} :
    columns.mapM pins.texts? = none ↔ ∃ column ∈ columns, ∀ texts, (column, texts) ∉ pins := by
  simp only [option_mapM_eq_none_iff, Pins.texts?_eq_none_iff]

/-- Over columns of which one is free there is no count and no combination. Otherwise the combinations
    are, each once and in the order of the bytes of their texts, the tuples that take for each column a
    text of its set; they are made by extending the empty tuple column by column; and the count is
    their number, cut off once. -/
theorem combinations_of_columns {pins : Pins} (hpins : pins.WellFormed) {columns : List String}
    (hne : columns ≠ []) :
    ((∃ column ∈ columns, ∀ texts, (column, texts) ∉ pins) →
      combinationCount pins columns = none ∧ combinations pins columns = []) ∧
    ((∀ column ∈ columns, ∃ texts, (column, texts) ∈ pins) →
      ∃ sets, List.Forall₂ (fun column texts => (column, texts) ∈ pins) columns sets ∧
        (combinations pins columns).Pairwise (fun tuple other =>
          tuple.map Text.utf8 < other.map Text.utf8) ∧
        (combinations pins columns).Nodup ∧
        (∀ tuple, tuple ∈ combinations pins columns ↔
          List.Forall₂ (fun texts text => text ∈ texts) sets tuple) ∧
        (combinations pins columns).length = (sets.map List.length).prod ∧
        combinations pins columns = sets.foldl extendedBy [[]] ∧
        combinationCount pins columns = some (min (sets.map List.length).prod maxCount)) := by
  constructor
  · intro hfree
    have hsets := mapM_texts?_eq_none_iff.2 hfree
    exact ⟨by rw [combinationCount_eq, hsets]; rfl, by rw [combinations, hsets]⟩
  · intro hpinned
    have hfound : ∀ column ∈ columns, ∃ texts, pins.texts? column = some texts := by
      intro column hcolumn
      obtain ⟨texts, hentry⟩ := hpinned column hcolumn
      exact ⟨texts, (Pins.texts?_eq_some_iff hpins).2 hentry⟩
    obtain ⟨sets, hsets⟩ := exists_mapM_eq_some hfound
    have hentries := (mapM_texts?_eq_some_iff hpins).1 hsets
    have hincreasing : (tuples sets).Pairwise (· < ·) := by
      apply pairwise_tuples
      intro texts htexts
      obtain ⟨column, -, hentry⟩ := exists_partner_of_mem hentries.flip htexts
      exact hpins.texts _ hentry
    refine ⟨sets, hentries, ?_⟩
    rw [combinations_of_sets hne hsets]
    refine ⟨?_, ?_, fun _ => mem_tuples, length_tuples sets, tuples_eq_foldl sets, ?_⟩
    · exact hincreasing.imp fun hless => List.map_lt (fun _ _ => Text.utf8_lt_utf8_iff.2) hless
    · exact hincreasing.imp Std.ne_of_lt
    · rw [combinationCount_eq, hsets, Option.map_some]

/-- A column of two texts named as often as the count has bits makes more combinations than the count
    can tell; one more column, without texts, and there are none. -/
theorem combinations_of_columns_beyond_count :
    let pins : Pins := [("id", ["0", "1"]), ("note", [])]
    let ids := List.replicate 128 "id"
    pins.WellFormed ∧
      (combinations pins ids).length = 2 ^ 128 ∧ (combinations pins ids).Nodup ∧
      combinationCount pins ids = some (2 ^ 128 - 1) ∧
      combinations pins (ids ++ ["note"]) = [] ∧
      combinationCount pins (ids ++ ["note"]) = some 0 := by
  intro pins ids
  have hpins : pins.WellFormed := ⟨by decide, by decide⟩
  have hall : ∀ column ∈ ids ++ ["note"], ∃ texts, (column, texts) ∈ pins := by
    intro column hcolumn
    rcases List.mem_append.1 hcolumn with hid | hnote
    · exact ⟨["0", "1"], List.eq_of_mem_replicate hid ▸ List.mem_cons_self⟩
    · exact ⟨[], List.mem_singleton.1 hnote ▸ List.mem_cons_of_mem _ List.mem_cons_self⟩
  obtain ⟨sets, hsets, -, hnodup, -, hlength, -, hcount⟩ :=
    (combinations_of_columns hpins (by decide)).2 fun column hid =>
      hall column (List.mem_append_left _ hid)
  obtain ⟨more, hmore, -, -, -, hnone, -, hzero⟩ :=
    (combinations_of_columns hpins (by decide)).2 hall
  have hprod : (sets.map List.length).prod = 2 ^ 128 := by
    have hreplicate : sets = List.replicate 128 ["0", "1"] := by
      refine List.eq_replicate_iff.2 ⟨hsets.length_eq.symm, ?_⟩
      intro texts htexts
      obtain ⟨column, hid, hentry⟩ := exists_partner_of_mem hsets.flip htexts
      rw [List.eq_of_mem_replicate hid] at hentry
      simpa [pins] using hentry
    rw [hreplicate, List.map_replicate, List.prod_replicate]
    rfl
  have hempty : (more.map List.length).prod = 0 := by
    obtain ⟨texts, htexts, hentry⟩ := exists_partner_of_mem hmore (List.mem_append_right _
      List.mem_cons_self)
    have hnil : texts = [] := by simpa [pins] using hentry
    exact List.prod_eq_zero (List.mem_map.2 ⟨texts, htexts, by rw [hnil]; rfl⟩)
  rw [hprod] at hlength hcount
  rw [hempty] at hnone hzero
  exact ⟨hpins, hlength, hnodup, hcount, List.length_eq_zero_iff.1 hnone, hzero⟩

end TokenScan
