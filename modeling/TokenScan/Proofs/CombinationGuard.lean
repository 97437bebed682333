/-
Module: TokenScan.Proofs.CombinationGuard
Purpose: The guard on the number of key combinations. It compares the limit with the true number, which
  the cut of the count cannot hide, and what it lets through is never more than the limit. All it does
  is to cut: a plan that passes it comes out the same under any wider limit and either policy, and so
  does a plan that fails for another reason. The tuples that reach the resolver are made visible by
  planning with a resolver that notes each as it is handed over.
Main exports: DataLayer.noting, DataLayer.targetsNoted, DataLayer.Exceeds,
  DataLayer.targetsNoted_of_not_within, DataLayer.targetsNoted_of_within,
  DataLayer.targetsNoted_targets, DataLayer.length_handed_le, DataLayer.targets_cases,
  DataLayer.targets_of_exceeds, DataLayer.targets_of_wider, DataLayer.degraded_of_tooMany,
  guard_of_combinations
-/
import Mathlib
import TokenScan.Proofs.PlannerHistory

namespace TokenScan

namespace DataLayer

/-- The resolver of a data layer, asked for the target of one tuple by someone who keeps a list of the
    tuples that were handed over. -/
def noting (layer : DataLayer) (tuple : List String) :
    ExceptT ResolveError (StateM (List (List String))) KeyTarget :=
  .mk do
    modify (· ++ [tuple])
    return layer.resolve tuple

/-- The targets of some pushed filters with what is told on the way, and the tuples that were handed to
    the resolver for them. -/
def targetsNoted (layer : DataLayer) (settings : Settings) (pushed : List Filter) :
    (Except PlanError (List KeyTarget) × List Event) × List (List String) :=
  ((layer.targetsWith layer.noting settings pushed).run []).run

/-- The filters pin every key column, to more tuples than the limit. -/
def Exceeds (layer : DataLayer) (settings : Settings) (pushed : List Filter) : Prop :=
  (∀ column ∈ layer.table.keyNames, IsPinned pushed column) ∧
    settings.maxCombinations.toNat < tupleCount pushed layer.table.keyNames

variable {layer : DataLayer} {settings : Settings} {pushed : List Filter}

/-! ### What is handed over -/

/-- The list grows by a front of the tuples, and by all of them when none fails. -/
theorem mapM_noting (layer : DataLayer) (tuples noted : List (List String)) :
    ∃ front, front <+: tuples ∧
      (tuples.mapM layer.noting).run.run noted = (tuples.mapM layer.resolve, noted ++ front) ∧
      ∀ resolved, tuples.mapM layer.resolve = .ok resolved → front = tuples := by
  induction tuples generalizing noted with
  | nil =>
      refine ⟨[], List.prefix_rfl, ?_, fun _ _ => rfl⟩
      rw [List.append_nil]
      rfl
  | cons tuple rest ih =>
      rw [List.mapM_cons, List.mapM_cons, ExceptT.run_bind, noting, ExceptT.run_mk]
      cases layer.resolve tuple with
      | error fault =>
          refine ⟨[tuple], List.cons_prefix_cons.2 ⟨rfl, List.nil_prefix⟩, rfl, ?_⟩
          intro resolved hresolved
          obtain ⟨target, hfound, -⟩ := except_bind_eq_ok_iff.1 hresolved
          simp at hfound
      | ok target =>
          obtain ⟨front, hfront, hrun, hall⟩ := ih (noted ++ [tuple])
          refine ⟨tuple :: front, List.cons_prefix_cons.2 ⟨rfl, hfront⟩, ?_, ?_⟩
          · simp only [bind_pure_comp, ExceptT.run_map, StateT.run_bind, map_pure, pure_bind,
              StateT.run_map, StateT.run_modify, hrun, List.append_assoc]
            rfl
          · intro resolved hresolved
            obtain ⟨_, -, hlater⟩ := except_bind_eq_ok_iff.1 hresolved
            obtain ⟨later, hlater, -⟩ := except_bind_eq_ok_iff.1 hlater
            exact congrArg (tuple :: ·) (hall later hlater)

/-- With a key column free, or more tuples than the limit, the resolver is not asked. -/
theorem targetsNoted_of_not_within
    (h : ¬ ((∀ column ∈ layer.table.keyNames, IsPinned pushed column) ∧
      tupleCount pushed layer.table.keyNames ≤ settings.maxCombinations.toNat)) :
    layer.targetsNoted settings pushed = (layer.targets settings pushed, []) := by
  by_cases hpinned : ∀ column ∈ layer.table.keyNames, IsPinned pushed column
  · have hexcess := Nat.not_le.1 fun hwithin => h ⟨hpinned, hwithin⟩
    rw [targetsNoted, targetsWith_of_excess _ hpinned hexcess, targets_of_excess hpinned hexcess]
    rfl
  · push Not at hpinned
    obtain ⟨column, hcolumn, hfree⟩ := hpinned
    rw [targetsNoted, targetsWith_of_free _ hcolumn hfree, targets_of_free hcolumn hfree]
    rfl

/-- Tuples within the limit are handed over up to the first that fails. -/
theorem targetsNoted_of_within
    (hpinned : ∀ column ∈ layer.table.keyNames, IsPinned pushed column)
    (hwithin : tupleCount pushed layer.table.keyNames ≤ settings.maxCombinations.toNat) :
    ∃ front, front <+: combinations (Pins.ofFilters pushed layer.table.keyNames)
        layer.table.keyNames ∧
      layer.targetsNoted settings pushed = (layer.targets settings pushed, front) ∧
      ∀ targets, (layer.targets settings pushed).1 = .ok targets →
        front = combinations (Pins.ofFilters pushed layer.table.keyNames) layer.table.keyNames := by
  obtain ⟨front, hfront, hrun, hall⟩ := layer.mapM_noting
    (combinations (Pins.ofFilters pushed layer.table.keyNames) layer.table.keyNames) []
  refine ⟨front, hfront, ?_, ?_⟩
  · rw [targetsNoted, targetsWith_of_within _ hpinned hwithin, targets_of_within hpinned hwithin,
      resolveAll_eq, resolveAllWith]
    simp only [bind_pure_comp, StateT.run_map, hrun]
    rfl
  · intro targets hok
    rw [targets_of_within hpinned hwithin, resolveAll_eq] at hok
    obtain ⟨resolved, hresolved, -⟩ := except_map_eq_ok_iff.1 hok
    exact hall resolved (except_mapError_eq_ok_iff.1 hresolved)

/-- Noting the tuples changes nothing. -/
theorem targetsNoted_targets (layer : DataLayer) (settings : Settings) (pushed : List Filter) :
    (layer.targetsNoted settings pushed).1 = layer.targets settings pushed := by
  by_cases h : (∀ column ∈ layer.table.keyNames, IsPinned pushed column) ∧
      tupleCount pushed layer.table.keyNames ≤ settings.maxCombinations.toNat
  · obtain ⟨front, -, hnoted, -⟩ := targetsNoted_of_within h.1 h.2
    rw [hnoted]
  · rw [targetsNoted_of_not_within h]

/-- No more tuples are handed over than the limit. -/
theorem length_handed_le (layer : DataLayer) (settings : Settings) (pushed : List Filter) :
    (layer.targetsNoted settings pushed).2.length ≤ settings.maxCombinations.toNat := by
  by_cases h : (∀ column ∈ layer.table.keyNames, IsPinned pushed column) ∧
      tupleCount pushed layer.table.keyNames ≤ settings.maxCombinations.toNat
  · obtain ⟨front, hfront, hnoted, -⟩ := targetsNoted_of_within h.1 h.2
    rw [hnoted]
    calc front.length
        ≤ (combinations (Pins.ofFilters pushed layer.table.keyNames) layer.table.keyNames).length :=
          hfront.length_le
      _ ≤ tupleCount pushed layer.table.keyNames := length_combinations_le h.1
      _ ≤ settings.maxCombinations.toNat := h.2
  · rw [targetsNoted_of_not_within h]
    exact Nat.zero_le _

/-- Behind a plan stand as many tuples as the pins allow. -/
theorem length_handed_of_ok {targets : List KeyTarget} (hcolumns : layer.table.keyNames ≠ [])
    (hpinned : ∀ column ∈ layer.table.keyNames, IsPinned pushed column)
    (hwithin : tupleCount pushed layer.table.keyNames ≤ settings.maxCombinations.toNat)
    (h : (layer.targets settings pushed).1 = .ok targets) :
    (layer.targetsNoted settings pushed).2.length = tupleCount pushed layer.table.keyNames := by
  obtain ⟨front, -, hnoted, hall⟩ := targetsNoted_of_within hpinned hwithin
  rw [hnoted, hall targets h, length_combinations hcolumns hpinned]

/-! ### What the guard decides -/

theorem targets_of_exceeds (h : layer.Exceeds settings pushed) :
    (layer.targets settings pushed).1 =
      match settings.onExcess with
      | .reject => .error (.tooManyCombinations
          (min (tupleCount pushed layer.table.keyNames) maxCount) settings.maxCombinations)
      | .fullScan => .ok [] := by
  rw [targets_of_excess h.1 h.2]
  cases settings.onExcess <;> rfl

/-- What is planned for some filters, and told on the way: they exceed the limit and are rejected or
    degraded, or they do not exceed it and nothing is told. -/
theorem targets_cases (layer : DataLayer) (settings : Settings) (pushed : List Filter) :
    (layer.Exceeds settings pushed ∧ ∃ requested,
      (settings.onExcess = .reject ∧ layer.targets settings pushed =
        (.error (.tooManyCombinations requested settings.maxCombinations),
          [.cardinalityRejected requested settings.maxCombinations])) ∨
      (settings.onExcess = .fullScan ∧ layer.targets settings pushed =
        (.ok [], [.cardinalityDegraded requested settings.maxCombinations]))) ∨
    (¬ layer.Exceeds settings pushed ∧ (layer.targets settings pushed).2 = []) := by
  by_cases hpinned : ∀ column ∈ layer.table.keyNames, IsPinned pushed column
  · by_cases hexcess : settings.maxCombinations.toNat < tupleCount pushed layer.table.keyNames
    · refine .inl ⟨⟨hpinned, hexcess⟩, min (tupleCount pushed layer.table.keyNames) maxCount, ?_⟩
      rw [targets_of_excess hpinned hexcess]
      cases settings.onExcess with
      | reject => exact .inl ⟨rfl, rfl⟩
      | fullScan => exact .inr ⟨rfl, rfl⟩
    · refine .inr ⟨fun h => hexcess h.2, ?_⟩
      rw [targets_of_within hpinned (Nat.not_lt.1 hexcess)]
  · refine .inr ⟨fun h => hpinned h.1, ?_⟩
    rw [targets_of_not_pinned hpinned]

/-- Filters that do not exceed the limit are planned as under any other settings that they do not
    exceed. -/
theorem targets_of_not_exceeds {others : Settings} (h : ¬ layer.Exceeds settings pushed)
    (hothers : ¬ layer.Exceeds others pushed) :
    layer.targets settings pushed = layer.targets others pushed := by
  by_cases hpinned : ∀ column ∈ layer.table.keyNames, IsPinned pushed column
  · have hwithin := Nat.not_lt.1 fun hexcess => h ⟨hpinned, hexcess⟩
    have hwithin' := Nat.not_lt.1 fun hexcess => hothers ⟨hpinned, hexcess⟩
    rw [targets_of_within hpinned hwithin, targets_of_within hpinned hwithin']
  · rw [targets_of_not_pinned hpinned, targets_of_not_pinned hpinned]

/-- The resolver cannot fail as the guard does. -/
theorem exceeds_of_tooMany {requested : Nat} {limit : UInt64}
    (h : (layer.targets settings pushed).1 = .error (.tooManyCombinations requested limit)) :
    layer.Exceeds settings pushed := by
  obtain ⟨hpinned, ⟨hexcess, -⟩ | ⟨-, fault, -, hfault⟩⟩ := targets_eq_error_iff.1 h
  · exact ⟨hpinned, hexcess⟩
  · cases fault <;> simp [PlanError.ofResolve] at hfault

section Policies

variable {limit : UInt64}

/-- A plan that passes the guard passes any wider one. -/
theorem targets_of_wider {targets : List KeyTarget} {wider : UInt64} (hwider : limit ≤ wider)
    (policy : ExcessPolicy) (hok : (layer.targets ⟨limit, .reject⟩ pushed).1 = .ok targets) :
    (layer.targets ⟨wider, policy⟩ pushed).1 = .ok targets := by
  have hwithin : ¬ layer.Exceeds ⟨limit, .reject⟩ pushed := by
    intro hexceeds
    rw [targets_of_exceeds hexceeds] at hok
    simp at hok
  have hwithin' : ¬ layer.Exceeds ⟨wider, policy⟩ pushed := by
    intro hexceeds
    exact hwithin ⟨hexceeds.1, Nat.lt_of_le_of_lt (UInt64.le_iff_toNat_le.1 hwider) hexceeds.2⟩
  rw [← targets_of_not_exceeds hwithin hwithin', hok]

/-- What is rejected is rejected by its true number, as far as it can be told, and degraded to a plan
    without targets. -/
theorem degraded_of_tooMany {requested : Nat} {bound : UInt64}
    (h : (layer.targets ⟨limit, .reject⟩ pushed).1 = .error (.tooManyCombinations requested bound)) :
    requested = min (tupleCount pushed layer.table.keyNames) maxCount ∧ limit.toNat < requested ∧
      bound = limit ∧ (layer.targets ⟨limit, .fullScan⟩ pushed).1 = .ok [] := by
  have hexceeds := exceeds_of_tooMany h
  have hdegraded : layer.Exceeds ⟨limit, .fullScan⟩ pushed := hexceeds
  rw [targets_of_exceeds hexceeds] at h
  obtain ⟨rfl, rfl⟩ := PlanError.tooManyCombinations.inj (Except.error.inj h)
  exact ⟨rfl, (limit_lt_min_iff _ _).2 hexceeds.2, rfl, targets_of_exceeds hdegraded⟩

/-- A failure that is not the guard's does not depend on the policy. -/
theorem targets_eq_error_iff_of_other {e : PlanError}
    (hother : ∀ requested bound, e ≠ .tooManyCombinations requested bound) :
    (layer.targets ⟨limit, .reject⟩ pushed).1 = .error e ↔
      (layer.targets ⟨limit, .fullScan⟩ pushed).1 = .error e := by
  have hsame : layer.Exceeds ⟨limit, .reject⟩ pushed ↔ layer.Exceeds ⟨limit, .fullScan⟩ pushed :=
    Iff.rfl
  by_cases hexceeds : layer.Exceeds ⟨limit, .reject⟩ pushed
  · rw [targets_of_exceeds hexceeds, targets_of_exceeds (hsame.1 hexceeds)]
    constructor
    · intro h
      exact absurd (Except.error.inj h).symm (hother _ _)
    · intro h
      simp at h
  · rw [targets_of_not_exceeds hexceeds (hsame.not.1 hexceeds)]

end Policies

end DataLayer

theorem Planner.residual_of_no_targets (p : Planner) (layer : DataLayer) :
    (p.scanOf layer []).residual = p.pushed := by
  simp only [scanOf, if_true]

/-- The guard is exact and only cuts, for a planner of the filters under a limit. Tuples reach the
    resolver only when their true number is within the limit, never more of them than the limit, and
    all of them when there is a plan.
    A plan that the rejecting policy gives is given under every wider limit and either policy. A plan
    that it rejects names the true number, as far as it can be told, and leaves the degrading policy a
    scan that narrows nothing and keeps every pushed filter. Any other failure is that of both
    policies. -/
theorem guard_of_combinations (layer : DataLayer) (filters : List Filter) (limit : UInt64) :
    let pushed := layer.enforced filters
    let allPinned := ∀ column ∈ layer.table.keyNames, IsPinned pushed column
    let count := tupleCount pushed layer.table.keyNames
    let planner (limit : UInt64) (policy : ExcessPolicy) :=
      ((Planner.fresh ⟨limit, policy⟩).push layer filters).planner
    let answer (limit : UInt64) (policy : ExcessPolicy) := ((planner limit policy).build layer).answer
    (∀ policy,
      let noted := layer.targetsNoted ⟨limit, policy⟩ pushed
      noted.1.1 = answer limit policy ∧ noted.2.length ≤ limit.toNat ∧
      (noted.2 ≠ [] → allPinned ∧ count ≤ limit.toNat) ∧
      (layer.table.keyNames ≠ [] → allPinned → count ≤ limit.toNat →
        ∀ targets, answer limit policy = .ok targets → noted.2.length = count) ∧
      (allPinned → limit.toNat < count → answer limit policy =
        match policy with
        | .reject => .error (.tooManyCombinations (min count maxCount) limit)
        | .fullScan => .ok [])) ∧
    (∀ targets, answer limit .reject = .ok targets →
      ∀ wider policy, limit ≤ wider → answer wider policy = .ok targets) ∧
    (∀ requested bound, answer limit .reject = .error (.tooManyCombinations requested bound) →
      requested = min count maxCount ∧ limit.toNat < requested ∧ bound = limit ∧
      answer limit .fullScan = .ok [] ∧
      ∃ plan, ((planner limit .fullScan).scan layer).answer = .ok plan ∧
        plan.isRestricted = false ∧ plan.pushed = pushed ∧ plan.residual = pushed) ∧
    ∀ e, (∀ requested bound, e ≠ .tooManyCombinations requested bound) →
      (answer limit .reject = .error e ↔ answer limit .fullScan = .error e) := by
  intro pushed allPinned count planner answer
  have hanswer : ∀ limit policy, answer limit policy = (layer.targets ⟨limit, policy⟩ pushed).1 :=
    fun limit policy => Planner.build_of_first_push layer ⟨limit, policy⟩ filters
  refine ⟨?_, ?_, ?_, ?_⟩
  · intro policy noted
    refine ⟨?_, layer.length_handed_le ⟨limit, policy⟩ pushed, ?_, ?_, ?_⟩
    · rw [hanswer, ← DataLayer.targetsNoted_targets]
    · intro hhanded
      by_contra hnot
      exact hhanded (congrArg Prod.snd (DataLayer.targetsNoted_of_not_within hnot))
    · intro hcolumns hpinned hwithin targets hok
      rw [hanswer] at hok
      exact DataLayer.length_handed_of_ok hcolumns hpinned hwithin hok
    · intro hpinned hexcess
      rw [hanswer]
      exact DataLayer.targets_of_exceeds ⟨hpinned, hexcess⟩
  · intro targets hok wider policy hwider
    rw [hanswer] at hok ⊢
    exact DataLayer.targets_of_wider hwider policy hok
  · intro requested bound herror
    rw [hanswer] at herror
    obtain ⟨hrequested, hover, hbound, hopen⟩ := DataLayer.degraded_of_tooMany herror
    refine ⟨hrequested, hover, hbound, (hanswer _ _).trans hopen, ?_⟩
    have hpushed : (planner limit .fullScan).pushed = pushed := by
      simp only [planner, Planner.push_planner, pushed]
    exact ⟨_, Planner.scan_of_first_targets hopen, rfl, hpushed,
      (Planner.residual_of_no_targets _ layer).trans hpushed⟩
  · intro e hother
    rw [hanswer, hanswer]
    exact DataLayer.targets_eq_error_iff_of_other hother

end TokenScan
