/-
Module: TokenScan.Proofs.CounterTotals
Purpose: The counters account for every request. Requests go to any number of planners in any order.
  The totals of such a run are counted from the requests and their answers alone, and the counters show
  these totals, each cut off at the greatest 64-bit number. A request tells of itself in one of seven
  ways; the balance between the totals holds for each of the seven, and is kept by addition and by the
  cut.
Main exports: Totals, Totals.plus, Totals.cut, Totals.Fits, Totals.Balanced, Counters.totals, Call,
  Exchange, exchanges, Exchange.Exceeds, Totals.ofRun, Exchange.accounts, Recorder.recordRun,
  counters_of_run
-/
import Mathlib
import TokenScan.Proofs.CombinationGuard
import TokenScan.Proofs.FailedRequests

namespace TokenScan

/-- Totals over planning steps that no greatest number stops. -/
@[ext] structure Totals where
  pushCalls : Nat := 0
  filtersPushed : Nat := 0
  filtersUnsupported : Nat := 0
  plansTargeted : Nat := 0
  plansUnrestricted : Nat := 0
  plansFailed : Nat := 0
  keysResolved : Nat := 0
  maxKeys : Nat := 0
  cardinalityRejections : Nat := 0
  cardinalityDegradations : Nat := 0

/-- The numbers that counters show. -/
def Counters.totals (c : Counters) : Totals :=
  { pushCalls := c.pushCalls.toNat
    filtersPushed := c.filtersPushed.toNat
    filtersUnsupported := c.filtersUnsupported.toNat
    plansTargeted := c.plansTargeted.toNat
    plansUnrestricted := c.plansUnrestricted.toNat
    plansFailed := c.plansFailed.toNat
    keysResolved := c.keysResolved.toNat
    maxKeys := c.maxKeys.toNat
    cardinalityRejections := c.cardinalityRejections.toNat
    cardinalityDegradations := c.cardinalityDegradations.toNat }

namespace Totals

/-- The totals of two stretches of work together. -/
def plus (s t : Totals) : Totals :=
  { pushCalls := s.pushCalls + t.pushCalls
    filtersPushed := s.filtersPushed + t.filtersPushed
    filtersUnsupported := s.filtersUnsupported + t.filtersUnsupported
    plansTargeted := s.plansTargeted + t.plansTargeted
    plansUnrestricted := s.plansUnrestricted + t.plansUnrestricted
    plansFailed := s.plansFailed + t.plansFailed
    keysResolved := s.keysResolved + t.keysResolved
    maxKeys := max s.maxKeys t.maxKeys
    cardinalityRejections := s.cardinalityRejections + t.cardinalityRejections
    cardinalityDegradations := s.cardinalityDegradations + t.cardinalityDegradations }

/-- What an event adds to the totals. -/
def ofEvent : Event → Totals
  | .filtersPushed pushed unsupported =>
    { pushCalls := 1, filtersPushed := pushed, filtersUnsupported := unsupported }
  | .planBuilt (.targeted keys) => { plansTargeted := 1, keysResolved := keys, maxKeys := keys }
  | .planBuilt .unrestricted => { plansUnrestricted := 1 }
  | .planFailed _ => { plansFailed := 1 }
  | .cardinalityRejected _ _ => { cardinalityRejections := 1 }
  | .cardinalityDegraded _ _ => { cardinalityDegradations := 1 }

/-- The totals with each cut off at the greatest 64-bit number. -/
def cut (t : Totals) : Counters :=
  { pushCalls := Counters.clamp t.pushCalls
    filtersPushed := Counters.clamp t.filtersPushed
    filtersUnsupported := Counters.clamp t.filtersUnsupported
    plansTargeted := Counters.clamp t.plansTargeted
    plansUnrestricted := Counters.clamp t.plansUnrestricted
    plansFailed := Counters.clamp t.plansFailed
    keysResolved := Counters.clamp t.keysResolved
    maxKeys := Counters.clamp t.maxKeys
    cardinalityRejections := Counters.clamp t.cardinalityRejections
    cardinalityDegradations := Counters.clamp t.cardinalityDegradations }

/-- No total is too great for 64 bits. -/
def Fits (t : Totals) : Prop :=
  t.pushCalls < UInt64.size ∧ t.filtersPushed < UInt64.size ∧ t.filtersUnsupported < UInt64.size ∧
    t.plansTargeted < UInt64.size ∧ t.plansUnrestricted < UInt64.size ∧
    t.plansFailed < UInt64.size ∧ t.keysResolved < UInt64.size ∧ t.maxKeys < UInt64.size ∧
    t.cardinalityRejections < UInt64.size ∧ t.cardinalityDegradations < UInt64.size

/-- How the totals of one run stand to each other. -/
structure Balanced (t : Totals) : Prop where
  rejections_le : t.cardinalityRejections ≤ t.plansFailed
  degradations_le : t.cardinalityDegradations ≤ t.plansUnrestricted
  targeted_le : t.plansTargeted ≤ t.keysResolved
  keys_le : t.keysResolved ≤ t.plansTargeted * t.maxKeys
  max_le : t.maxKeys ≤ t.keysResolved

end Totals

/-! ### Counters that are cut off -/

namespace Counters

theorem toNat_clamp (n : Nat) : (clamp n).toNat = min n (UInt64.size - 1) := by
  rw [clamp, UInt64.toNat_ofNat']
  have hsize : UInt64.size = 2 ^ 64 := rfl
  omega

theorem toNat_clamp_mono {m n : Nat} (h : m ≤ n) : (clamp m).toNat ≤ (clamp n).toNat := by
  rw [toNat_clamp, toNat_clamp]
  omega

/-- A total that is cut off early is cut off all the same. -/
theorem plus_clamp (total n : Nat) : plus (clamp total) n = clamp (total + n) := by
  apply UInt64.toNat_inj.1
  rw [plus, toNat_clamp, toNat_clamp, toNat_clamp]
  omega

theorem max_clamp (m n : Nat) : max (clamp m) (clamp n) = clamp (max m n) := by
  apply UInt64.toNat_inj.1
  rw [UInt64.toNat_max, toNat_clamp, toNat_clamp, toNat_clamp]
  omega

end Counters

namespace Totals

theorem plus_assoc (r s t : Totals) : (r.plus s).plus t = r.plus (s.plus t) := by
  simp only [plus, Nat.add_assoc, Nat.max_assoc]

@[simp] theorem plus_zero (t : Totals) : t.plus {} = t := by
  simp only [plus, Nat.add_zero, Nat.max_zero]

@[simp] theorem zero_plus (t : Totals) : Totals.plus {} t = t := by
  simp only [plus, Nat.zero_add, Nat.zero_max]

/-- Recording an event and cutting off commute. -/
theorem record_cut (t : Totals) (event : Event) :
    t.cut.record event = (t.plus (ofEvent event)).cut := by
  rcases event with ⟨pushed, unsupported⟩ | (keys | _) | errorClass | ⟨requested, limit⟩ |
    ⟨requested, limit⟩ <;>
  simp only [Counters.record, cut, plus, ofEvent, Counters.plus_clamp, Counters.max_clamp,
    Nat.add_zero, Nat.max_zero]

/-- What some events add to the totals. -/
def ofEvents (events : List Event) : Totals :=
  events.foldr (fun event later => (ofEvent event).plus later) {}

theorem recordAll_cut (t : Totals) (events : List Event) :
    t.cut.recordAll events = (t.plus (ofEvents events)).cut := by
  induction events generalizing t with
  | nil => rw [ofEvents, List.foldr_nil, plus_zero, Counters.recordAll, List.foldl_nil]
  | cons event later ih =>
      calc t.cut.recordAll (event :: later)
          = (t.plus (ofEvent event)).cut.recordAll later := by
            rw [← record_cut, Counters.recordAll, List.foldl_cons, Counters.recordAll]
        _ = (t.plus (ofEvents (event :: later))).cut := by
            rw [ih, plus_assoc, ofEvents, ofEvents, List.foldr_cons]

/-- Totals that fit are shown as they are. -/
theorem totals_cut {t : Totals} (h : t.Fits) : t.cut.totals = t := by
  obtain ⟨h1, h2, h3, h4, h5, h6, h7, h8, h9, h10⟩ := h
  ext <;> simp only [Counters.totals, cut, Counters.toNat_clamp] <;> omega

/-! ### The balance -/

theorem balanced_zero : ({} : Totals).Balanced :=
  ⟨Nat.le_refl 0, Nat.le_refl 0, Nat.le_refl 0, Nat.le_refl 0, Nat.le_refl 0⟩

theorem Balanced.plus {s t : Totals} (hs : s.Balanced) (ht : t.Balanced) :
    (s.plus t).Balanced where
  rejections_le := Nat.add_le_add hs.rejections_le ht.rejections_le
  degradations_le := Nat.add_le_add hs.degradations_le ht.degradations_le
  targeted_le := Nat.add_le_add hs.targeted_le ht.targeted_le
  keys_le := by
    calc s.keysResolved + t.keysResolved
        ≤ s.plansTargeted * s.maxKeys + t.plansTargeted * t.maxKeys :=
          Nat.add_le_add hs.keys_le ht.keys_le
      _ ≤ s.plansTargeted * max s.maxKeys t.maxKeys + t.plansTargeted * max s.maxKeys t.maxKeys :=
          Nat.add_le_add (Nat.mul_le_mul_left _ (Nat.le_max_left _ _))
            (Nat.mul_le_mul_left _ (Nat.le_max_right _ _))
      _ = (s.plansTargeted + t.plansTargeted) * max s.maxKeys t.maxKeys := (Nat.add_mul _ _ _).symm
  max_le := by
    have hleft := hs.max_le
    have hright := ht.max_le
    change max s.maxKeys t.maxKeys ≤ s.keysResolved + t.keysResolved
    omega

/-- A product of numbers that are cut off still reaches what its cut reaches. -/
theorem min_le_min_mul_min {keys plans most bound : Nat} (hkeys : keys ≤ plans * most)
    (hplans : plans ≤ keys) (hmost : most ≤ keys) :
    min keys bound ≤ min plans bound * min most bound := by
  rcases Nat.eq_zero_or_pos plans with rfl | hplans'
  · rw [Nat.zero_mul] at hkeys
    omega
  rcases Nat.eq_zero_or_pos most with rfl | hmost'
  · rw [Nat.mul_zero] at hkeys
    omega
  rcases Nat.eq_zero_or_pos bound with rfl | hbound
  · rw [Nat.min_zero]
    exact Nat.zero_le _
  rcases Nat.le_total bound plans with hcut | hcut
  · calc min keys bound ≤ bound := Nat.min_le_right _ _
      _ = min plans bound := (Nat.min_eq_right hcut).symm
      _ ≤ min plans bound * min most bound := Nat.le_mul_of_pos_right _ (by omega)
  rcases Nat.le_total bound most with hcut' | hcut'
  · calc min keys bound ≤ bound := Nat.min_le_right _ _
      _ = min most bound := (Nat.min_eq_right hcut').symm
      _ ≤ min plans bound * min most bound := Nat.le_mul_of_pos_left _ (by omega)
  rw [Nat.min_eq_left hcut, Nat.min_eq_left hcut']
  exact Nat.le_trans (Nat.min_le_left _ _) hkeys

/-- The cut keeps the balance. -/
theorem Balanced.cut {t : Totals} (h : t.Balanced) : t.cut.totals.Balanced where
  rejections_le := Counters.toNat_clamp_mono h.rejections_le
  degradations_le := Counters.toNat_clamp_mono h.degradations_le
  targeted_le := Counters.toNat_clamp_mono h.targeted_le
  keys_le := by
    simp only [Counters.totals, Totals.cut, Counters.toNat_clamp]
    exact min_le_min_mul_min h.keys_le h.targeted_le h.max_le
  max_le := Counters.toNat_clamp_mono h.max_le

end Totals

/-! ### Runs over many planners -/

/-- A request to one of the planners, with the data layer that it is handed. -/
structure Call where
  planner : Nat
  layer : DataLayer
  request : Request

/-- A request with the planner that it met. -/
structure Exchange where
  layer : DataLayer
  before : Planner
  request : Request

/-- All that comes of the request. -/
def Exchange.step (x : Exchange) : Step Answer :=
  x.before.respond x.layer x.request

/-- Calls one after another. Each planner goes on from where its last call left it. -/
def exchanges (planners : Nat → Planner) : List Call → List Exchange
  | [] => []
  | call :: rest =>
    let x : Exchange := ⟨call.layer, planners call.planner, call.request⟩
    x :: exchanges (Function.update planners call.planner x.step.planner) rest

/-- The events of a run, in their order. -/
def Recorder.recordRun (r : Recorder) (run : List Exchange) : Recorder :=
  run.foldl (fun r x => r.record x.step.events) r

namespace Request

/-- The filters that are handed over with the request. -/
def given (request : Request) : List Filter :=
  request.filters?.getD []

def isPush (request : Request) : Bool :=
  request.filters?.isSome

/-- The request is answered from a plan. -/
def asksPlan : Request → Bool
  | .build => true
  | .scan => true
  | _ => false

end Request

/-- The targets that are answered, alone or in a scan. -/
def Answer.targets? : Answer → Option (List KeyTarget)
  | .built (.ok targets) => some targets
  | .scanned (.ok plan) => some plan.targets
  | _ => none

namespace Exchange

variable (x : Exchange)

/-- The request asks for a plan that the planner does not hold. -/
def plansAnew : Bool :=
  x.request.asksPlan && x.before.plan.isNone

/-- The targets of a plan that was made anew. -/
def found? : Option (List KeyTarget) :=
  if x.plansAnew then x.step.answer.targets? else none

/-- The number of targets of a plan that was made anew. -/
def keys : Nat :=
  (x.found?.getD []).length

/-- A plan was to be made anew, and the filters exceed the limit under the policy. -/
def Exceeds (policy : ExcessPolicy) : Prop :=
  x.plansAnew ∧ x.before.settings.onExcess = policy ∧
    x.layer.Exceeds x.before.settings x.before.pushed

end Exchange

open Classical in
/-- The totals of a run, counted from what was asked, what was answered and which plans were held. -/
noncomputable def Totals.ofRun (run : List Exchange) : Totals :=
  { pushCalls := run.countP (·.request.isPush)
    filtersPushed := (run.map fun x => x.request.given.countP x.layer.enforces).sum
    filtersUnsupported := (run.map fun x => x.request.given.countP (!x.layer.enforces ·)).sum
    plansTargeted := run.countP (·.found?.any (· ≠ []))
    plansUnrestricted := run.countP (·.found? = some [])
    plansFailed := run.countP fun x => x.plansAnew && x.step.answer.error?.isSome
    keysResolved := (run.map Exchange.keys).sum
    maxKeys := (run.map Exchange.keys).foldr max 0
    cardinalityRejections := run.countP (·.Exceeds .reject)
    cardinalityDegradations := run.countP (·.Exceeds .fullScan) }

theorem Totals.ofRun_cons (x : Exchange) (run : List Exchange) :
    ofRun (x :: run) = (ofRun [x]).plus (ofRun run) := by
  ext <;> simp [ofRun, plus, List.countP_cons, Nat.add_comm]

/-! ### What one request tells -/

/-- The ways in which a request tells of itself: whether it had a plan made anew, the events, and what
    they are to add to the totals. -/
inductive Accounts : Bool → List Event → Totals → Prop where
  | silent : Accounts false [] {}
  | pushed (pushed unsupported : Nat) :
      Accounts false [.filtersPushed pushed unsupported]
        { pushCalls := 1, filtersPushed := pushed, filtersUnsupported := unsupported }
  | targeted (keys : Nat) (some_key : 0 < keys) :
      Accounts true [.planBuilt (.targeted keys)]
        { plansTargeted := 1, keysResolved := keys, maxKeys := keys }
  | unrestricted : Accounts true [.planBuilt .unrestricted] { plansUnrestricted := 1 }
  | degraded (requested : Nat) (limit : UInt64) :
      Accounts true [.cardinalityDegraded requested limit, .planBuilt .unrestricted]
        { plansUnrestricted := 1, cardinalityDegradations := 1 }
  | failed (errorClass : ErrorClass) :
      Accounts true [.planFailed errorClass] { plansFailed := 1 }
  | rejected (requested : Nat) (limit : UInt64) (errorClass : ErrorClass) :
      Accounts true [.cardinalityRejected requested limit, .planFailed errorClass]
        { plansFailed := 1, cardinalityRejections := 1 }

namespace Accounts

variable {anew : Bool} {events : List Event} {t : Totals}

/-- The events add to the totals what they are to add. -/
theorem ofEvents (h : Accounts anew events t) : Totals.ofEvents events = t := by
  cases h <;> simp [Totals.ofEvents, Totals.ofEvent, Totals.plus]

theorem balanced (h : Accounts anew events t) : t.Balanced := by
  cases h with
  | targeted keys some_key =>
      exact ⟨Nat.le_refl _, Nat.le_refl _, some_key, Nat.le_of_eq (Nat.one_mul keys).symm,
        Nat.le_refl _⟩
  | _ => constructor <;> simp

/-- A plan that was made anew came out in one way. -/
theorem outcomes (h : Accounts anew events t) :
    t.plansTargeted + t.plansUnrestricted + t.plansFailed = if anew then 1 else 0 := by
  cases h <;> rfl

end Accounts

namespace Exchange

variable {x : Exchange}

theorem plan_of_plansAnew (h : x.plansAnew = true) : x.before.plan = none := by
  simp only [plansAnew, Bool.and_eq_true, Option.isNone_iff_eq_none] at h
  exact h.2

theorem asksPlan_of_plansAnew (h : x.plansAnew = true) :
    x.request = .build ∨ x.request = .scan := by
  obtain ⟨layer, before, request⟩ := x
  cases request with
  | prune columns => simp [plansAnew, Request.asksPlan] at h
  | push filters => simp [plansAnew, Request.asksPlan] at h
  | build => exact .inl rfl
  | scan => exact .inr rfl

section Anew

variable (h : x.plansAnew = true) {told : List Event}

include h

/-- A plan that is made anew is told of, and its targets are answered. -/
theorem found_of_ok {targets : List KeyTarget}
    (hmade : x.layer.targets x.before.settings x.before.pushed = (.ok targets, told)) :
    x.found? = some targets ∧ x.step.answer.error?.isSome = false ∧
      x.step.events = told ++ [.planBuilt (.ofTargets targets)] := by
  have hbuild : x.before.build x.layer =
      { answer := .ok targets
        planner := { x.before with plan := some targets, phase := .planned }
        events := told ++ [.planBuilt (.ofTargets targets)] } := by
    simp only [Planner.build, plan_of_plansAnew h, hmade]
  rw [found?, if_pos h]
  rcases asksPlan_of_plansAnew h with hrequest | hrequest <;>
  simp only [step, hrequest, Planner.respond, Planner.scan, hbuild] <;>
  exact ⟨rfl, rfl, trivial⟩

/-- A failure to plan is told and answered. -/
theorem fails_of_error {e : PlanError}
    (hmade : x.layer.targets x.before.settings x.before.pushed = (.error e, told)) :
    x.found? = none ∧ x.step.answer.error?.isSome = true ∧
      x.step.events = told ++ [.planFailed e.errorClass] := by
  have hbuild : x.before.build x.layer =
      { answer := .error e, planner := x.before, events := told ++ [.planFailed e.errorClass] } := by
    simp only [Planner.build, plan_of_plansAnew h, hmade]
  rw [found?, if_pos h]
  rcases asksPlan_of_plansAnew h with hrequest | hrequest <;>
  simp only [step, hrequest, Planner.respond, Planner.scan, hbuild] <;>
  exact ⟨rfl, rfl, trivial⟩

end Anew

/-- A request that has no plan made is a push, or there is nothing to count. -/
theorem ofRun_of_not_plansAnew (h : x.plansAnew = false) :
    Totals.ofRun [x] =
      { pushCalls := if x.request.isPush then 1 else 0
        filtersPushed := x.request.given.countP x.layer.enforces
        filtersUnsupported := x.request.given.countP (!x.layer.enforces ·) } := by
  simp [Totals.ofRun, found?, keys, Exceeds, h]

theorem accounts_of_not_plansAnew (h : x.plansAnew = false) :
    Accounts false x.step.events (Totals.ofRun [x]) := by
  rw [ofRun_of_not_plansAnew h]
  obtain ⟨layer, before, request⟩ := x
  have hheld (hasks : request.asksPlan = true) : (before.build layer).events = [] := by
    simp only [plansAnew, hasks, Bool.true_and, Option.isNone_eq_false_iff] at h
    obtain ⟨targets, hplan⟩ := Option.isSome_iff_exists.1 h
    rw [Planner.build_eq_of_planned hplan]
  cases request with
  | prune columns =>
      have hevents : (Exchange.mk layer before (.prune columns)).step.events = [] := by
        simp only [step, Planner.respond]
        cases before.prune layer columns <;> rfl
      rw [hevents]
      exact .silent
  | push filters =>
      have hevents : (Exchange.mk layer before (.push filters)).step.events =
          [.filtersPushed (filters.countP layer.enforces)
            (filters.countP (!layer.enforces ·))] := by
        simp only [step, Planner.respond, Planner.push, List.partition_eq_filter_filter,
          List.countP_eq_length_filter, Function.comp_def]
      rw [hevents]
      exact .pushed _ _
  | build =>
      have hevents : (Exchange.mk layer before .build).step.events = [] := hheld rfl
      rw [hevents]
      exact .silent
  | scan =>
      have hevents : (Exchange.mk layer before .scan).step.events = [] := hheld rfl
      rw [hevents]
      exact .silent

theorem accounts_of_plansAnew (h : x.plansAnew = true) :
    Accounts true x.step.events (Totals.ofRun [x]) := by
  have hgiven : x.request.given = [] ∧ x.request.isPush = false := by
    rcases asksPlan_of_plansAnew h with hrequest | hrequest <;> rw [hrequest] <;> exact ⟨rfl, rfl⟩
  rcases x.layer.targets_cases x.before.settings x.before.pushed with
    ⟨hexceeds, requested, ⟨hpolicy, hmade⟩ | ⟨hpolicy, hmade⟩⟩ | ⟨hexceeds, hsilent⟩
  · obtain ⟨hfound, hfails, hevents⟩ := fails_of_error h hmade
    have htotals : Totals.ofRun [x] = { plansFailed := 1, cardinalityRejections := 1 } := by
      simp [Totals.ofRun, keys, Exceeds, hgiven, hfound, hfails, h, hpolicy, hexceeds]
    rw [hevents, htotals]
    exact .rejected _ _ _
  · obtain ⟨hfound, hfails, hevents⟩ := found_of_ok h hmade
    have htotals : Totals.ofRun [x] =
        { plansUnrestricted := 1, cardinalityDegradations := 1 } := by
      simp [Totals.ofRun, keys, Exceeds, hgiven, hfound, hfails, h, hpolicy, hexceeds]
    rw [hevents, htotals]
    exact .degraded _ _
  · cases hanswer : (x.layer.targets x.before.settings x.before.pushed).1 with
    | error e =>
        obtain ⟨hfound, hfails, hevents⟩ := fails_of_error h (Prod.ext hanswer hsilent)
        have htotals : Totals.ofRun [x] = { plansFailed := 1 } := by
          simp [Totals.ofRun, keys, Exceeds, hgiven, hfound, hfails, h, hexceeds]
        rw [hevents, htotals]
        exact .failed _
    | ok targets =>
        obtain ⟨hfound, hfails, hevents⟩ := found_of_ok h (Prod.ext hanswer hsilent)
        rw [hevents, List.nil_append, Outcome.ofTargets]
        by_cases hnone : targets = []
        · have htotals : Totals.ofRun [x] = { plansUnrestricted := 1 } := by
            simp [Totals.ofRun, keys, Exceeds, hgiven, hfound, hfails, h, hexceeds, hnone]
          rw [htotals, if_pos hnone]
          exact .unrestricted
        · have htotals : Totals.ofRun [x] =
              { plansTargeted := 1
                keysResolved := targets.length
                maxKeys := targets.length } := by
            simp [Totals.ofRun, keys, Exceeds, hgiven, hfound, hfails, h, hexceeds, hnone]
          rw [htotals, if_neg hnone]
          exact .targeted _ (List.length_pos_iff.2 hnone)

/-- A request tells what it adds to the totals. -/
theorem accounts (x : Exchange) : Accounts x.plansAnew x.step.events (Totals.ofRun [x]) := by
  cases h : x.plansAnew with
  | false => exact accounts_of_not_plansAnew h
  | true => exact accounts_of_plansAnew h

/-- A plan has no more targets than the limit, which is a 64-bit number. -/
theorem keys_lt (x : Exchange) : x.keys < UInt64.size := by
  have hnone (h : x.found? = none) : x.keys < UInt64.size := by
    rw [keys, h]
    decide
  cases h : x.plansAnew with
  | false => exact hnone (by rw [found?, h]; rfl)
  | true =>
      cases hanswer : (x.layer.targets x.before.settings x.before.pushed).1 with
      | error e => exact hnone (fails_of_error h (Prod.ext hanswer rfl)).1
      | ok targets =>
          rw [keys, (found_of_ok h (Prod.ext hanswer rfl)).1]
          exact Nat.lt_of_le_of_lt (DataLayer.length_targets_le hanswer)
            (UInt64.toNat_lt_size _)

end Exchange

/-! ### What a run leaves in the counters -/

namespace Totals

theorem balanced_ofRun (run : List Exchange) : (ofRun run).Balanced := by
  induction run with
  | nil => exact balanced_zero
  | cons x run ih =>
      rw [ofRun_cons]
      exact x.accounts.balanced.plus ih

/-- Every plan that was to be made anew came out in one way. -/
theorem outcomes_ofRun (run : List Exchange) :
    (ofRun run).plansTargeted + (ofRun run).plansUnrestricted + (ofRun run).plansFailed =
      run.countP Exchange.plansAnew := by
  induction run with
  | nil => rfl
  | cons x run ih =>
      have hone := x.accounts.outcomes
      rw [ofRun_cons, List.countP_cons, ← ih, ← hone]
      simp only [plus]
      omega

theorem maxKeys_ofRun_lt (run : List Exchange) : (ofRun run).maxKeys < UInt64.size := by
  induction run with
  | nil => decide
  | cons x run ih => exact Nat.max_lt.2 ⟨x.keys_lt, ih⟩

/-- Every filter that was handed over was either pushed or given back. -/
theorem filters_ofRun (run : List Exchange) :
    (ofRun run).filtersPushed + (ofRun run).filtersUnsupported =
      (run.map (·.request.given.length)).sum := by
  induction run with
  | nil => rfl
  | cons x run ih =>
      have hsplit := @List.length_eq_countP_add_countP _ x.layer.enforces x.request.given
      simp only [Bool.not_eq_true, Bool.decide_eq_false] at hsplit
      rw [List.map_cons, List.sum_cons, ← ih, hsplit]
      simp only [ofRun, List.map_cons, List.sum_cons]
      omega

end Totals

/-- The counters show the totals of a run, cut off. -/
theorem Recorder.recordRun_cut (t : Totals) (run : List Exchange) :
    Recorder.recordRun ⟨t.cut, []⟩ run = ⟨(t.plus (Totals.ofRun run)).cut, []⟩ := by
  induction run generalizing t with
  | nil => rw [show Totals.ofRun [] = {} from rfl, Totals.plus_zero, recordRun, List.foldl_nil]
  | cons x run ih =>
      calc Recorder.recordRun ⟨t.cut, []⟩ (x :: run)
          = Recorder.recordRun ⟨t.cut.recordAll x.step.events, []⟩ run := rfl
        _ = Recorder.recordRun ⟨(t.plus (Totals.ofRun [x])).cut, []⟩ run := by
            rw [Totals.recordAll_cut, x.accounts.ofEvents]
        _ = ⟨(t.plus (Totals.ofRun (x :: run))).cut, []⟩ := by
            rw [ih, Totals.plus_assoc, ← Totals.ofRun_cons]

/-- A run asks what its calls ask. -/
theorem map_request_exchanges (planners : Nat → Planner) (calls : List Call) :
    (exchanges planners calls).map Exchange.request = calls.map Call.request := by
  induction calls generalizing planners with
  | nil => rfl
  | cons call rest ih => exact congrArg (call.request :: ·) (ih _)

/-- The counters account for every request. After any calls to any planners, from counters that were
    reset and with no sink open, they show the true totals, each cut off at the greatest 64-bit number,
    and the greatest number of keys as it is. What they show is always in balance. Totals that fit are
    shown as they are: a push for every push, its filters either pushed or given back, and one outcome
    for every plan that was asked for and not held. -/
theorem counters_of_run (planners : Nat → Planner) (calls : List Call) (counters : Counters) :
    let run := exchanges planners calls
    let after := (Recorder.resetCounters ⟨counters, []⟩).recordRun run
    let shown := after.counters.totals
    after.counters = (Totals.ofRun run).cut ∧ shown.maxKeys = (Totals.ofRun run).maxKeys ∧
      shown.Balanced ∧
      ((Totals.ofRun run).Fits →
        shown = Totals.ofRun run ∧
        shown.pushCalls = calls.countP (·.request.isPush) ∧
        shown.filtersPushed + shown.filtersUnsupported = (calls.map (·.request.given.length)).sum ∧
        shown.plansTargeted + shown.plansUnrestricted + shown.plansFailed =
          run.countP Exchange.plansAnew) := by
  intro run after shown
  have hafter : after.counters = (Totals.ofRun run).cut := by
    have hrecord := Recorder.recordRun_cut {} run
    rw [Totals.zero_plus] at hrecord
    exact congrArg Recorder.counters hrecord
  have hshown : shown = (Totals.ofRun run).cut.totals := congrArg Counters.totals hafter
  have hrequests := map_request_exchanges planners calls
  refine ⟨hafter, ?_, ?_, ?_⟩
  · rw [hshown]
    have hlt := Totals.maxKeys_ofRun_lt run
    simp only [Counters.totals, Totals.cut, Counters.toNat_clamp]
    omega
  · rw [hshown]
    exact (Totals.balanced_ofRun run).cut
  · intro hfits
    rw [hshown, Totals.totals_cut hfits]
    refine ⟨rfl, ?_, ?_, Totals.outcomes_ofRun run⟩
    · calc run.countP (·.request.isPush)
          = (run.map Exchange.request).countP Request.isPush := by rw [List.countP_map]; rfl
        _ = calls.countP (·.request.isPush) := by rw [hrequests, List.countP_map]; rfl
    · calc (Totals.ofRun run).filtersPushed + (Totals.ofRun run).filtersUnsupported
          = (run.map (·.request.given.length)).sum := Totals.filters_ofRun run
        _ = ((run.map Exchange.request).map (·.given.length)).sum := by rw [List.map_map]; rfl
        _ = (calls.map (·.request.given.length)).sum := by rw [hrequests, List.map_map]; rfl

/-- Two values where one is allowed: the planner that rejects them fails each time it is asked, the
    one that degrades them has its plan after the first time. -/
example :
    let layer := DataLayer.ofTable eventTable .murmur3 1 []
    let planners : Nat → Planner
      | 0 => .fresh ⟨1, .reject⟩
      | _ => .fresh ⟨1, .fullScan⟩
    let filters : List Filter := [.isIn "id" [.int 1, .int 2], .isNull "note"]
    let calls : List Call :=
      [⟨0, layer, .push filters⟩, ⟨1, layer, .push filters⟩, ⟨0, layer, .build⟩,
        ⟨1, layer, .build⟩, ⟨0, layer, .scan⟩, ⟨1, layer, .scan⟩]
    (Recorder.recordRun {} (exchanges planners calls)).counters =
      { pushCalls := 2, filtersPushed := 2, filtersUnsupported := 2, plansUnrestricted := 1,
        plansFailed := 2, cardinalityRejections := 2, cardinalityDegradations := 1 } := by
  cbv

end TokenScan
