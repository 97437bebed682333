/-
Module: TokenScan.Proofs.FailedRequests
Purpose: A request that fails might as well not have been made. It leaves the planner as it was, so
  that it fails again in the same way and every later request is answered as it would have been
  without it. All that is left of a failed plan are one more failure and, where the guard on
  combinations made it fail, one more rejection in the totals; a failed pruning leaves nothing.
Main exports: Answer, Planner.respond, Planner.respondAll, Counters.afterFailure,
  Planner.respond_of_error, Planner.respondAll_replicate, failure_changes_nothing
-/
import Mathlib
import TokenScan.Proofs.PlannerHistory

namespace TokenScan

/-- What is answered to a request. -/
inductive Answer where
  | pruned (result : Except PlanError Unit)
  | unsupported (filters : List Filter)
  | built (result : Except PlanError (List KeyTarget))
  | scanned (result : Except PlanError ScanPlan)

/-- The failure that is answered, if it is one. A push never fails. -/
def Answer.error? : Answer → Option PlanError
  | .pruned (.error e) => some e
  | .built (.error e) => some e
  | .scanned (.error e) => some e
  | _ => none

namespace Answer

variable {e : PlanError}

@[simp] theorem error?_pruned {result : Except PlanError Unit} :
    (pruned result).error? = some e ↔ result = .error e := by
  cases result <;> simp [error?]

@[simp] theorem error?_unsupported (filters : List Filter) :
    (unsupported filters).error? = none := rfl

@[simp] theorem error?_built {result : Except PlanError (List KeyTarget)} :
    (built result).error? = some e ↔ result = .error e := by
  cases result <;> simp [error?]

@[simp] theorem error?_scanned {result : Except PlanError ScanPlan} :
    (scanned result).error? = some e ↔ result = .error e := by
  cases result <;> simp [error?]

end Answer

/-- What the guard tells before it makes a plan fail. -/
def PlanError.guardEvents : PlanError → List Event
  | .tooManyCombinations requested limit => [.cardinalityRejected requested limit]
  | _ => []

/-- The totals after a plan has failed. -/
def Counters.afterFailure (c : Counters) : PlanError → Counters
  | .tooManyCombinations _ _ =>
    { c with
      plansFailed := plus c.plansFailed 1
      cardinalityRejections := plus c.cardinalityRejections 1 }
  | _ => { c with plansFailed := plus c.plansFailed 1 }

theorem Counters.recordAll_of_failure (c : Counters) (e : PlanError) :
    c.recordAll (e.guardEvents ++ [.planFailed e.errorClass]) = c.afterFailure e := by
  cases e <;> rfl

/-- No resolver fails as the guard does. -/
theorem PlanError.guardEvents_ofResolve (fault : ResolveError) :
    (ofResolve fault).guardEvents = [] := by
  cases fault <;> rfl

namespace DataLayer

variable {layer : DataLayer} {settings : Settings} {pushed : List Filter} {e : PlanError}

/-- Before a plan fails only the guard tells of it. -/
theorem events_of_error (h : (layer.targets settings pushed).1 = .error e) :
    (layer.targets settings pushed).2 = e.guardEvents := by
  obtain ⟨hpinned, ⟨hexcess, hpolicy, rfl⟩ | ⟨hwithin, fault, -, rfl⟩⟩ := targets_eq_error_iff.1 h
  · rw [targets_of_excess hpinned hexcess, hpolicy]
    rfl
  · rw [targets_of_within hpinned hwithin, PlanError.guardEvents_ofResolve]

end DataLayer

namespace Planner

/-- A request with all that comes of it. -/
def respond (layer : DataLayer) (p : Planner) : Request → Step Answer
  | .prune columns =>
    match p.prune layer columns with
    | .ok q => { answer := .pruned (.ok ()), planner := q }
    | .error e => { answer := .pruned (.error e), planner := p }
  | .push filters =>
    let step := p.push layer filters
    { answer := .unsupported step.answer, planner := step.planner, events := step.events }
  | .build =>
    let step := p.build layer
    { answer := .built step.answer, planner := step.planner, events := step.events }
  | .scan =>
    let step := p.scan layer
    { answer := .scanned step.answer, planner := step.planner, events := step.events }

/-- Requests one after another, with all that comes of each. -/
def respondAll (layer : DataLayer) (p : Planner) : List Request → List (Step Answer)
  | [] => []
  | request :: rest =>
    let step := p.respond layer request
    step :: step.planner.respondAll layer rest

variable {layer : DataLayer} {p : Planner}

theorem respond_planner (layer : DataLayer) (p : Planner) (request : Request) :
    (p.respond layer request).planner = p.after layer request := by
  cases request with
  | prune columns =>
      simp only [respond, after]
      cases p.prune layer columns <;> rfl
  | _ => rfl

theorem respondAll_append (layer : DataLayer) (p : Planner) (before rest : List Request) :
    p.respondAll layer (before ++ rest) =
      p.respondAll layer before ++ (p.run layer before).respondAll layer rest := by
  induction before generalizing p with
  | nil => rfl
  | cons request before ih =>
      rw [List.cons_append, respondAll, respondAll, ih, respond_planner, List.cons_append]
      rfl

/-! ### One failure -/

/-- A plan that fails leaves the planner, and tells what the guard found and that it failed. -/
theorem build_of_error {e : PlanError} (h : (p.build layer).answer = .error e) :
    (p.build layer).planner = p ∧
      (p.build layer).events = e.guardEvents ++ [.planFailed e.errorClass] := by
  unfold build at h ⊢
  cases hplan : p.plan with
  | some targets =>
      rw [hplan] at h
      simp at h
  | none =>
      rw [hplan] at h
      have hevents := @DataLayer.events_of_error layer p.settings p.pushed e
      dsimp only at h ⊢
      generalize layer.targets p.settings p.pushed = found at h hevents ⊢
      obtain ⟨answer, events⟩ := found
      cases answer with
      | ok targets => simp at h
      | error fault =>
          cases h
          exact ⟨rfl, congrArg (· ++ _) (hevents rfl)⟩

/-- A pruning fails at the first column that the table does not have. -/
theorem prune_of_error {columns : List String} {e : PlanError}
    (h : p.prune layer columns = .error e) :
    ∃ known column rest, columns = known ++ column :: rest ∧
      (∀ c ∈ known, layer.table.hasColumn c = true) ∧ layer.table.hasColumn column = false ∧
      e = .unknownColumn layer.table.keyspace layer.table.name column := by
  unfold prune at h
  split at h
  · next column hfound =>
      cases h
      obtain ⟨hunknown, known, rest, hsplit, hknown⟩ := List.find?_eq_some_iff_append.1 hfound
      refine ⟨known, column, rest, hsplit, ?_, by simpa using hunknown, rfl⟩
      intro c hc
      simpa using hknown c hc
  · simp at h

/-- What is known of a request that failed: it was no push, and failed as its pruning or its plan
    failed. -/
theorem failure_cases {request : Request} {e : PlanError}
    (h : (p.respond layer request).answer.error? = some e) :
    (∃ columns, request = .prune columns ∧ p.prune layer columns = .error e) ∨
      ((request = .build ∨ request = .scan) ∧ (p.build layer).answer = .error e) := by
  cases request with
  | prune columns =>
      simp only [respond] at h
      cases hprune : p.prune layer columns with
      | ok q =>
          rw [hprune] at h
          simp at h
      | error fault =>
          rw [hprune] at h
          cases h
          exact .inl ⟨columns, rfl, hprune⟩
  | push filters => simp [respond] at h
  | build => exact .inr ⟨.inl rfl, Answer.error?_built.1 h⟩
  | scan =>
      have hscan : (p.scan layer).answer = .error e := Answer.error?_scanned.1 h
      rw [scan_answer] at hscan
      cases hbuild : (p.build layer).answer with
      | ok targets =>
          rw [hbuild] at hscan
          cases hscan
      | error fault =>
          rw [hbuild] at hscan
          cases hscan
          exact .inr ⟨.inr rfl, rfl⟩

section Failure

variable {request : Request} {e : PlanError}
  (hfailed : (p.respond layer request).answer.error? = some e)

include hfailed

/-- A failure leaves the planner. -/
theorem respond_of_error : (p.respond layer request).planner = p := by
  rw [respond_planner]
  rcases failure_cases hfailed with ⟨columns, rfl, hprune⟩ | ⟨rfl | rfl, hbuild⟩
  · simp only [after, hprune]
  · exact (build_of_error hbuild).1
  · exact (build_of_error hbuild).1

/-- A request that fails fails as often as it is made, and what follows does not tell how often. -/
theorem respondAll_replicate (times : Nat) (later : List Request) :
    p.respondAll layer (List.replicate times request ++ later) =
      List.replicate times (p.respond layer request) ++ p.respondAll layer later := by
  induction times with
  | zero => rfl
  | succ times ih =>
      rw [List.replicate_succ, List.cons_append, respondAll, respond_of_error hfailed, ih]
      rfl

/-- The trace of a plan that failed. -/
theorem recordAll_of_error (hplan : request = .build ∨ request = .scan) (c : Counters) :
    c.recordAll (p.respond layer request).events = c.afterFailure e := by
  rcases failure_cases hfailed with ⟨columns, rfl, -⟩ | ⟨-, hbuild⟩
  · simp at hplan
  · have hevents : (p.respond layer request).events = (p.build layer).events := by
      rcases hplan with rfl | rfl <;> rfl
    rw [hevents, (build_of_error hbuild).2, Counters.recordAll_of_failure]

end Failure

end Planner

/-- A request that fails, at any time in any history, leaves the planner as it was. Made any number of
    times it fails as many times in the same way, and all requests before and after it come out as if
    it had not been made. A plan that failed adds one failure to the totals and, if the guard refused
    it, one rejection; a pruning that failed adds nothing and names the first of its columns that the
    table does not have. -/
theorem failure_changes_nothing (layer : DataLayer) (settings : Settings) (before : List Request)
    {request : Request} {e : PlanError}
    (hfailed : (((Planner.fresh settings).run layer before).respond layer request).answer.error? =
      some e) :
    let p := (Planner.fresh settings).run layer before
    let failed := p.respond layer request
    failed.planner = p ∧
      (∀ times later, (Planner.fresh settings).respondAll layer
          (before ++ (List.replicate times request ++ later)) =
        (Planner.fresh settings).respondAll layer before ++
          (List.replicate times failed ++ p.respondAll layer later)) ∧
      (request = .build ∨ request = .scan →
        ∀ c : Counters, c.recordAll failed.events = c.afterFailure e) ∧
      ∀ columns, request = .prune columns →
        (∀ c : Counters, c.recordAll failed.events = c) ∧
        ∃ known column rest, columns = known ++ column :: rest ∧
          (∀ c ∈ known, layer.table.hasColumn c = true) ∧ layer.table.hasColumn column = false ∧
          e = .unknownColumn layer.table.keyspace layer.table.name column := by
  intro p failed
  refine ⟨Planner.respond_of_error hfailed, ?_, Planner.recordAll_of_error hfailed, ?_⟩
  · intro times later
    rw [Planner.respondAll_append, Planner.respondAll_replicate hfailed]
  · rintro columns rfl
    rcases Planner.failure_cases hfailed with ⟨_, hcolumns, hprune⟩ | ⟨hplan, -⟩
    · cases hcolumns
      have hsilent : failed.events = [] := by
        simp only [failed, Planner.respond]
        rw [hprune]
      exact ⟨fun c => by rw [hsilent]; rfl, Planner.prune_of_error hprune⟩
    · simp at hplan

/-- Two values for the key where one is allowed: the scan fails twice in one way, and a push that
    follows is answered as if there had been no scan. -/
theorem failure_changes_nothing_of_excess :
    let layer := DataLayer.ofTable eventTable .murmur3 1 []
    let settings : Settings := { maxCombinations := 1 }
    let pinned := Request.push [.isIn "id" [.int 1, .int 2]]
    let narrower := Request.push [.compare .equal "id" (.int 2)]
    let failed := ((Planner.fresh settings).run layer [pinned]).respond layer .scan
    failed.answer.error? = some (.tooManyCombinations 2 1) ∧
      failed.planner = (Planner.fresh settings).run layer [pinned] ∧
      ({} : Counters).recordAll failed.events =
        { plansFailed := 1, cardinalityRejections := 1 } ∧
      (Planner.fresh settings).respondAll layer [pinned, .scan, .scan, narrower, .scan] =
        (Planner.fresh settings).respondAll layer [pinned] ++
          ([failed, failed] ++
            ((Planner.fresh settings).run layer [pinned]).respondAll layer [narrower, .scan]) := by
  intro layer settings pinned narrower failed
  have hbuild : (((Planner.fresh settings).run layer [pinned]).build layer).answer =
      .error (.tooManyCombinations 2 1) := by
    have henforced : layer.enforced [.isIn "id" [.int 1, .int 2]] =
        [.isIn "id" [.int 1, .int 2]] := by
      cbv
    have htargets : layer.targets settings [.isIn "id" [.int 1, .int 2]] =
        (.error (.tooManyCombinations 2 1), [.cardinalityRejected 2 1]) := by
      cbv
    rw [Planner.run_singleton, Planner.after, Planner.build_of_first_push, henforced, htargets]
  have hfailed : failed.answer.error? = some (.tooManyCombinations 2 1) := by
    simp only [failed, Planner.respond, Planner.scan_answer, hbuild]
    rfl
  obtain ⟨hplanner, hanswers, htotals, -⟩ :=
    failure_changes_nothing layer settings [pinned] hfailed
  exact ⟨hfailed, hplanner, htotals (.inr rfl) {}, hanswers 2 [narrower, .scan]⟩

end TokenScan
