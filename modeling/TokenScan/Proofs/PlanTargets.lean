/-
Module: TokenScan.Proofs.PlanTargets
Purpose: What a list of pushed filters is planned to. There are three ways: a key column is free and
  nothing is narrowed, there are more tuples than the limit, or every tuple is resolved and the
  targets come in ring order. They are the same however the resolver is asked. All that is said of
  plans elsewhere starts from these three.
Main exports: DataLayer.resolveAll, DataLayer.targets_congr, DataLayer.targetsWith_of_free,
  DataLayer.targetsWith_of_excess, DataLayer.targetsWith_of_within, DataLayer.targets_of_free,
  DataLayer.targets_of_excess, DataLayer.targets_of_within, DataLayer.targets_of_steps,
  DataLayer.resolveAll_eq_ok, DataLayer.resolveAll_eq_error_iff, DataLayer.targets_eq_error_iff,
  DataLayer.targets_within_eq_ok, DataLayer.pairwise_of_targets, DataLayer.targets_eq_ok,
  DataLayer.length_targets_le
-/
import TokenScan.Plan.Planner
import TokenScan.Proofs.KeyTuples

namespace TokenScan

/-- A table with one key column and one other. -/
def eventTable : Table :=
  ⟨"ks", "events", [⟨"id", .partitionKey, 0, .int⟩, ⟨"note", .value, 0, .text⟩]⟩

namespace DataLayer

/-- The targets of all tuples, in ring order. -/
def resolveAll (layer : DataLayer) (tuples : List (List String)) :
    Except PlanError (List KeyTarget) :=
  (resolveAllWith layer.ask tuples).run

variable {layer : DataLayer} {settings : Settings} {pushed : List Filter}

/-- The resolver answers at once, so asking it for one tuple after the other does no more than
    resolving them. -/
theorem mapM_ask (layer : DataLayer) (tuples : List (List String)) :
    (tuples.mapM layer.ask).run.run = tuples.mapM layer.resolve := by
  induction tuples with
  | nil => rfl
  | cons tuple rest ih =>
      rw [List.mapM_cons, List.mapM_cons, ← ih, ExceptT.run_bind, ask, ExceptT.run_mk, pure_bind]
      cases layer.resolve tuple with
      | error fault => rfl
      | ok target =>
          simp only [bind_pure_comp, ExceptT.run_map, Id.run_map]
          rfl

theorem resolveAll_eq (layer : DataLayer) (tuples : List (List String)) :
    layer.resolveAll tuples =
      ((tuples.mapM layer.resolve).mapError .ofResolve).map KeyTarget.ringOrder := by
  rw [← mapM_ask]
  rfl

/-- Filters are planned by the texts that they leave to the key columns, and by nothing else. -/
theorem targets_congr {others : List Filter}
    (h : ∀ column ∈ layer.table.keyNames, pinnedTexts pushed column = pinnedTexts others column) :
    layer.targets settings pushed = layer.targets settings others := by
  simp only [targets, targetsWith, Pins.ofFilters_congr h]

/-- The limit is below the number at which counts are cut off, so the cut does not show. -/
theorem limit_lt_min_iff (limit : UInt64) (count : Nat) :
    limit.toNat < min count maxCount ↔ limit.toNat < count := by
  have hlimit := limit.toNat_lt
  have hcut : 2 ^ 64 ≤ maxCount := by decide
  omega

/-! ### The three ways, however the resolver is asked -/

section Asking

variable {m : Type → Type} [Monad m] (ask : List String → ExceptT ResolveError m KeyTarget)

/-- A free key column leaves the scan as wide as it was. -/
theorem targetsWith_of_free {column : String} (hcolumn : column ∈ layer.table.keyNames)
    (hfree : ¬ IsPinned pushed column) :
    layer.targetsWith ask settings pushed = pure (.ok [], []) := by
  simp only [targetsWith, combinationCount_of_not_pinned hcolumn hfree]

/-- More tuples than the limit are not resolved; the policy decides what becomes of the plan. -/
theorem targetsWith_of_excess (hpinned : ∀ column ∈ layer.table.keyNames, IsPinned pushed column)
    (hexcess : settings.maxCombinations.toNat < tupleCount pushed layer.table.keyNames) :
    layer.targetsWith ask settings pushed =
      let requested := min (tupleCount pushed layer.table.keyNames) maxCount
      let limit := settings.maxCombinations
      pure (match settings.onExcess with
        | .reject =>
          (.error (.tooManyCombinations requested limit), [.cardinalityRejected requested limit])
        | .fullScan => (.ok [], [.cardinalityDegraded requested limit])) := by
  have hover := (limit_lt_min_iff settings.maxCombinations _).2 hexcess
  simp only [targetsWith, combinationCount_of_pinned hpinned, if_pos hover]
  cases settings.onExcess <;> rfl

/-- Tuples within the limit are all resolved. -/
theorem targetsWith_of_within (hpinned : ∀ column ∈ layer.table.keyNames, IsPinned pushed column)
    (hwithin : tupleCount pushed layer.table.keyNames ≤ settings.maxCombinations.toNat) :
    layer.targetsWith ask settings pushed = do
      let found ← resolveAllWith ask (combinations (Pins.ofFilters pushed layer.table.keyNames)
        layer.table.keyNames)
      return (found, []) := by
  have hlet : ¬ settings.maxCombinations.toNat <
      min (tupleCount pushed layer.table.keyNames) maxCount := by
    rw [limit_lt_min_iff]
    exact Nat.not_lt.2 hwithin
  simp only [targetsWith, combinationCount_of_pinned hpinned, if_neg hlet]

end Asking

/-! ### Targets -/

theorem targets_of_free {column : String} (hcolumn : column ∈ layer.table.keyNames)
    (hfree : ¬ IsPinned pushed column) : layer.targets settings pushed = (.ok [], []) :=
  targetsWith_of_free layer.ask hcolumn hfree

theorem targets_of_not_pinned (h : ¬ ∀ column ∈ layer.table.keyNames, IsPinned pushed column) :
    layer.targets settings pushed = (.ok [], []) := by
  push Not at h
  obtain ⟨column, hcolumn, hfree⟩ := h
  exact targets_of_free hcolumn hfree

theorem targets_of_excess (hpinned : ∀ column ∈ layer.table.keyNames, IsPinned pushed column)
    (hexcess : settings.maxCombinations.toNat < tupleCount pushed layer.table.keyNames) :
    layer.targets settings pushed =
      let requested := min (tupleCount pushed layer.table.keyNames) maxCount
      let limit := settings.maxCombinations
      match settings.onExcess with
      | .reject =>
        (.error (.tooManyCombinations requested limit), [.cardinalityRejected requested limit])
      | .fullScan => (.ok [], [.cardinalityDegraded requested limit]) :=
  targetsWith_of_excess layer.ask hpinned hexcess

theorem targets_of_within (hpinned : ∀ column ∈ layer.table.keyNames, IsPinned pushed column)
    (hwithin : tupleCount pushed layer.table.keyNames ≤ settings.maxCombinations.toNat) :
    layer.targets settings pushed =
      (layer.resolveAll (combinations (Pins.ofFilters pushed layer.table.keyNames)
        layer.table.keyNames), []) :=
  targetsWith_of_within layer.ask hpinned hwithin

/-- The steps of a plan within the limit: the tuples are formed, each is resolved, and the targets are
    put in ring order. -/
theorem targets_of_steps (count : Nat) (tuples : List (List String))
    (resolved : List KeyTarget) {found : List KeyTarget}
    (hcount : combinationCount (Pins.ofFilters pushed layer.table.keyNames) layer.table.keyNames =
      some count)
    (hwithin : count ≤ settings.maxCombinations.toNat)
    (htuples : combinations (Pins.ofFilters pushed layer.table.keyNames) layer.table.keyNames =
      tuples)
    (hresolved : tuples.mapM layer.resolve = .ok resolved)
    (hsorted : KeyTarget.ringOrder resolved = found) :
    layer.targets settings pushed = (.ok found, []) := by
  have hall : layer.resolveAll tuples = .ok found := by
    simp only [resolveAll_eq, except_map_eq_ok_iff, except_mapError_eq_ok_iff]
    exact ⟨resolved, hresolved, hsorted⟩
  simp only [targets, targetsWith, hcount, if_neg (Nat.not_lt.2 hwithin), htuples]
  exact congrArg (·, []) hall

/-- Tuples resolve together exactly when each does, and then give their targets in ring order. -/
theorem resolveAll_eq_ok {tuples : List (List String)} {targets : List KeyTarget}
    (h : layer.resolveAll tuples = .ok targets) :
    targets.Pairwise KeyTarget.Before ∧
      (∀ target, target ∈ targets ↔ ∃ tuple ∈ tuples, layer.resolve tuple = .ok target) ∧
      ∀ tuple ∈ tuples, ∃ target ∈ targets, layer.resolve tuple = .ok target := by
  simp only [resolveAll_eq, except_map_eq_ok_iff, except_mapError_eq_ok_iff,
    except_mapM_eq_ok_iff] at h
  obtain ⟨resolved, hresolved, rfl⟩ := h
  refine ⟨KeyTarget.pairwise_ringOrder resolved, ?_, ?_⟩
  · intro target
    rw [KeyTarget.mem_ringOrder]
    constructor
    · intro htarget
      obtain ⟨tuple, htuple, hok⟩ := exists_partner_of_mem hresolved.flip htarget
      exact ⟨tuple, htuple, hok⟩
    · intro h
      rcases h with ⟨tuple, htuple, hok⟩
      obtain ⟨other, hother, hok'⟩ := exists_partner_of_mem hresolved htuple
      rw [hok] at hok'
      injection hok' with heq
      exact heq ▸ hother
  · intro tuple htuple
    obtain ⟨target, htarget, hok⟩ := exists_partner_of_mem hresolved htuple
    exact ⟨target, KeyTarget.mem_ringOrder.2 htarget, hok⟩

/-- Tuples may share a target, but none has two. -/
theorem length_resolveAll_le {tuples : List (List String)} {targets : List KeyTarget}
    (h : layer.resolveAll tuples = .ok targets) : targets.length ≤ tuples.length := by
  simp only [resolveAll_eq, except_map_eq_ok_iff, except_mapError_eq_ok_iff,
    except_mapM_eq_ok_iff] at h
  obtain ⟨resolved, hresolved, rfl⟩ := h
  rw [hresolved.length_eq]
  exact length_sortDistinct_le _ resolved

/-- Tuples fail to resolve together as the first of them that fails. -/
theorem resolveAll_eq_error_iff {tuples : List (List String)} {e : PlanError} :
    layer.resolveAll tuples = .error e ↔
      ∃ fault, tuples.mapM layer.resolve = .error fault ∧ .ofResolve fault = e := by
  rw [resolveAll_eq, except_map_eq_error_iff, except_mapError_eq_error_iff]

/-- A plan fails only with all key columns pinned: by more tuples than the limit where the policy
    rejects them, or by a tuple within the limit that does not resolve. -/
theorem targets_eq_error_iff {e : PlanError} :
    (layer.targets settings pushed).1 = .error e ↔
      (∀ column ∈ layer.table.keyNames, IsPinned pushed column) ∧
      ((settings.maxCombinations.toNat < tupleCount pushed layer.table.keyNames ∧
          settings.onExcess = .reject ∧
          e = .tooManyCombinations (min (tupleCount pushed layer.table.keyNames) maxCount)
            settings.maxCombinations) ∨
        (tupleCount pushed layer.table.keyNames ≤ settings.maxCombinations.toNat ∧
          ∃ fault, (combinations (Pins.ofFilters pushed layer.table.keyNames)
              layer.table.keyNames).mapM layer.resolve = .error fault ∧ .ofResolve fault = e)) := by
  by_cases hpinned : ∀ column ∈ layer.table.keyNames, IsPinned pushed column
  · rw [and_iff_right hpinned]
    rcases Nat.lt_or_ge settings.maxCombinations.toNat (tupleCount pushed layer.table.keyNames) with
      hexcess | hwithin
    · rw [targets_of_excess hpinned hexcess]
      cases settings.onExcess with
      | reject => simp [hexcess, Nat.not_le.2 hexcess, eq_comm]
      | fullScan => simp [Nat.not_le.2 hexcess]
    · rw [targets_of_within hpinned hwithin]
      simp only [resolveAll_eq_error_iff, Nat.not_lt.2 hwithin, hwithin, false_and, true_and,
        false_or]
  · rw [iff_false_intro (not_and.2 fun h => absurd h hpinned), iff_false]
    rw [targets_of_not_pinned hpinned]
    simp

/-- Within the limit a plan has the targets of all tuples that the pins allow. -/
theorem targets_within_eq_ok {targets : List KeyTarget} (hcolumns : layer.table.keyNames ≠ [])
    (hpinned : ∀ column ∈ layer.table.keyNames, IsPinned pushed column)
    (hwithin : tupleCount pushed layer.table.keyNames ≤ settings.maxCombinations.toNat)
    (h : (layer.targets settings pushed).1 = .ok targets) :
    targets.Pairwise KeyTarget.Before ∧
      (∀ target, target ∈ targets ↔
        ∃ tuple, KeyTuple pushed layer.table.keyNames tuple ∧ layer.resolve tuple = .ok target) ∧
      ∀ tuple, KeyTuple pushed layer.table.keyNames tuple →
        ∃ target ∈ targets, layer.resolve tuple = .ok target := by
  rw [targets_of_within hpinned hwithin] at h
  obtain ⟨hsorted, hmem, hall⟩ := resolveAll_eq_ok h
  simp only [mem_combinations hcolumns hpinned] at hmem hall
  exact ⟨hsorted, hmem, hall⟩

/-- Whatever a list of filters is planned to comes in ring order. -/
theorem pairwise_of_targets {targets : List KeyTarget}
    (h : (layer.targets settings pushed).1 = .ok targets) : targets.Pairwise KeyTarget.Before := by
  by_cases hpinned : ∀ column ∈ layer.table.keyNames, IsPinned pushed column
  · rcases Nat.lt_or_ge settings.maxCombinations.toNat (tupleCount pushed layer.table.keyNames) with
      hexcess | hwithin
    · rw [targets_of_excess hpinned hexcess] at h
      dsimp only at h
      split at h
      · simp at h
      · injection h with h
        exact h ▸ .nil
    · rw [targets_of_within hpinned hwithin] at h
      exact (resolveAll_eq_ok h).1
  · rw [targets_of_not_pinned hpinned] at h
    injection h with h
    exact h ▸ .nil

/-- A plan that narrows the scan has every key column pinned, by no more tuples than the limit, and
    its targets are those of all tuples that the pins allow. -/
theorem targets_eq_ok {targets : List KeyTarget} (hne : targets ≠ [])
    (h : (layer.targets settings pushed).1 = .ok targets) :
    (∀ column ∈ layer.table.keyNames, IsPinned pushed column) ∧
      tupleCount pushed layer.table.keyNames ≤ settings.maxCombinations.toNat ∧
      (∀ target, target ∈ targets ↔
        ∃ tuple, KeyTuple pushed layer.table.keyNames tuple ∧ layer.resolve tuple = .ok target) ∧
      ∀ tuple, KeyTuple pushed layer.table.keyNames tuple →
        ∃ target ∈ targets, layer.resolve tuple = .ok target := by
  have hpinned : ∀ column ∈ layer.table.keyNames, IsPinned pushed column := by
    intro column hcolumn
    by_contra hfree
    rw [targets_of_free hcolumn hfree] at h
    injection h with h
    exact hne h.symm
  rcases Nat.lt_or_ge settings.maxCombinations.toNat (tupleCount pushed layer.table.keyNames) with
    hexcess | hwithin
  · rw [targets_of_excess hpinned hexcess] at h
    dsimp only at h
    split at h
    · simp at h
    · injection h with h
      exact absurd h.symm hne
  · have hcolumns : layer.table.keyNames ≠ [] := by
      intro hnil
      rw [targets_of_within hpinned hwithin, hnil, combinations_nil] at h
      dsimp only at h
      obtain ⟨-, hmem, -⟩ := resolveAll_eq_ok h
      obtain ⟨target, htarget⟩ := List.exists_mem_of_ne_nil targets hne
      obtain ⟨tuple, htuple, -⟩ := (hmem target).1 htarget
      exact absurd htuple List.not_mem_nil
    exact ⟨hpinned, hwithin, (targets_within_eq_ok hcolumns hpinned hwithin h).2⟩

/-- No plan has more targets than the limit. -/
theorem length_targets_le {targets : List KeyTarget}
    (h : (layer.targets settings pushed).1 = .ok targets) :
    targets.length ≤ settings.maxCombinations.toNat := by
  by_cases hnone : targets = []
  · rw [hnone]
    exact Nat.zero_le _
  · obtain ⟨hpinned, hwithin, -⟩ := targets_eq_ok hnone h
    rw [targets_of_within hpinned hwithin] at h
    calc targets.length
        ≤ (combinations (Pins.ofFilters pushed layer.table.keyNames) layer.table.keyNames).length :=
          length_resolveAll_le h
      _ ≤ tupleCount pushed layer.table.keyNames := length_combinations_le hpinned
      _ ≤ settings.maxCombinations.toNat := hwithin

end DataLayer

end TokenScan
