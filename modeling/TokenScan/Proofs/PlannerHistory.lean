/-
Module: TokenScan.Proofs.PlannerHistory
Purpose: Whole histories of one planner. A host engine sends requests in any order and may repeat
  them; what the planner holds afterwards is told by the history alone: the filters of the last push,
  the columns of the last pruning that succeeded, and a plan that was resolved for filters equal to
  those it holds.
Main exports: Request, Planner.fresh, Planner.after, Planner.run, lastPush, lastProjection,
  Planner.build_cases, Planner.after_frame, Planner.Consistent, Planner.Consistent.build_answer,
  Planner.run_consistent, Planner.run_settings, Planner.run_pushed, Planner.run_projection
-/
import TokenScan.Proofs.FilterEquality
import TokenScan.Proofs.PlanTargets

namespace TokenScan

/-- What a host engine asks of a planner. -/
inductive Request where
  | prune (columns : List String)
  | push (filters : List Filter)
  | build
  | scan
deriving DecidableEq, Repr

namespace Request

/-- The filters that a request pushes. -/
def filters? : Request → Option (List Filter)
  | .push filters => some filters
  | _ => none

/-- The columns that a request prunes to, when the table has them all. -/
def projection? (table : Table) : Request → Option (List String)
  | .prune columns => if columns.all table.hasColumn then some columns else none
  | _ => none

end Request

/-- The filters of the last push in a history. -/
def lastPush (requests : List Request) : Option (List Filter) :=
  (requests.filterMap Request.filters?).getLast?

/-- The columns of the last pruning in a history that asks only for columns of the table. -/
def lastProjection (table : Table) (requests : List Request) : Option (List String) :=
  (requests.filterMap (Request.projection? table)).getLast?

theorem lastPush_append (before : List Request) (request : Request) :
    lastPush (before ++ [request]) = request.filters?.or (lastPush before) := by
  rw [lastPush, List.filterMap_append]
  cases hfilters : request.filters? <;> simp [hfilters, lastPush]

theorem lastProjection_append (table : Table) (before : List Request) (request : Request) :
    lastProjection table (before ++ [request]) =
      (request.projection? table).or (lastProjection table before) := by
  rw [lastProjection, List.filterMap_append]
  cases hprojection : request.projection? table <;> simp [hprojection, lastProjection]

/-- The filters of a list that the source enforces. -/
def DataLayer.enforced (layer : DataLayer) (filters : List Filter) : List Filter :=
  filters.filter layer.enforces

namespace Planner

/-- A planner before any request. -/
def fresh (settings : Settings) : Planner :=
  { settings := settings }

/-- The planner after a request; one that fails leaves it as it was. -/
def after (layer : DataLayer) (p : Planner) : Request → Planner
  | .prune columns =>
    match p.prune layer columns with
    | .ok q => q
    | .error _ => p
  | .push filters => (p.push layer filters).planner
  | .build => (p.build layer).planner
  | .scan => (p.scan layer).planner

/-- The planner after a history of requests. -/
def run (layer : DataLayer) (p : Planner) (requests : List Request) : Planner :=
  requests.foldl (after layer) p

@[simp] theorem run_nil (layer : DataLayer) (p : Planner) : p.run layer [] = p := rfl

@[simp] theorem run_append (layer : DataLayer) (p : Planner) (before rest : List Request) :
    p.run layer (before ++ rest) = (p.run layer before).run layer rest :=
  List.foldl_append

@[simp] theorem run_singleton (layer : DataLayer) (p : Planner) (request : Request) :
    p.run layer [request] = p.after layer request := rfl

/-! ### What one request does -/

theorem prune_eq_ok_iff {p q : Planner} {layer : DataLayer} {columns : List String} :
    p.prune layer columns = .ok q ↔ columns.all layer.table.hasColumn = true ∧
      q = { p with
        projection := some columns
        phase := if p.phase = .initialized then .schemaFixed else p.phase } := by
  have hknown : columns.find? (!layer.table.hasColumn ·) = none ↔
      columns.all layer.table.hasColumn = true := by
    simp [List.find?_eq_none]
  simp only [prune, ← hknown]
  cases columns.find? (!layer.table.hasColumn ·) with
  | some unknown => simp
  | none => simp [eq_comm]

@[simp] theorem push_answer (p : Planner) (layer : DataLayer) (filters : List Filter) :
    (p.push layer filters).answer = filters.filter (!layer.enforces ·) := by
  simp [push, List.partition_eq_filter_filter, Function.comp_def]

@[simp] theorem push_planner (p : Planner) (layer : DataLayer) (filters : List Filter) :
    (p.push layer filters).planner =
      { p with
        pushed := layer.enforced filters
        phase := .filtersFixed
        plan := if Filter.sameList (layer.enforced filters) p.pushed then p.plan else none } := by
  simp only [push, List.partition_eq_filter_filter]
  rfl

/-- What `build` does: it answers from the plan it holds, or resolves the filters it holds and keeps
    what comes of them, or fails and changes nothing. -/
theorem build_cases (p : Planner) (layer : DataLayer) :
    (∃ targets, p.plan = some targets ∧ (p.build layer).answer = .ok targets ∧
      (p.build layer).planner = { p with phase := .planned }) ∨
    (p.plan = none ∧ (p.build layer).answer = (layer.targets p.settings p.pushed).1 ∧
      ((∃ targets, (layer.targets p.settings p.pushed).1 = .ok targets ∧
          (p.build layer).planner = { p with plan := some targets, phase := .planned }) ∨
        (∃ e, (layer.targets p.settings p.pushed).1 = .error e ∧
          (p.build layer).planner = p))) := by
  unfold build
  cases hplan : p.plan with
  | some targets => exact .inl ⟨targets, rfl, rfl, rfl⟩
  | none =>
      refine .inr ⟨rfl, ?_⟩
      obtain ⟨answer, events⟩ := layer.targets p.settings p.pushed
      cases answer with
      | ok targets => exact ⟨rfl, .inl ⟨targets, rfl, rfl⟩⟩
      | error e => exact ⟨rfl, .inr ⟨e, rfl, rfl⟩⟩

theorem build_of_unplanned {p : Planner} (hplan : p.plan = none) (layer : DataLayer) :
    (p.build layer).answer = (layer.targets p.settings p.pushed).1 := by
  rcases p.build_cases layer with ⟨targets, hkept, -⟩ | ⟨-, hanswer, -⟩
  · rw [hplan] at hkept
    simp at hkept
  · exact hanswer

theorem build_of_planned {p : Planner} {targets : List KeyTarget} (hplan : p.plan = some targets)
    (layer : DataLayer) : (p.build layer).answer = .ok targets := by
  rcases p.build_cases layer with ⟨kept, hkept, hanswer, -⟩ | ⟨hnone, -⟩
  · obtain rfl := Option.some.inj (hplan.symm.trans hkept)
    exact hanswer
  · rw [hplan] at hnone
    simp at hnone

/-- A plan that is held answers by itself: nothing is resolved and nothing is told. -/
theorem build_eq_of_planned {p : Planner} {targets : List KeyTarget} (hplan : p.plan = some targets)
    (layer : DataLayer) :
    p.build layer = { answer := .ok targets, planner := { p with phase := .planned } } := by
  simp only [build, hplan]

/-- A planner that resolves its filters keeps the targets. -/
theorem plan_build_of_unplanned {p : Planner} {layer : DataLayer} {targets : List KeyTarget}
    (hplan : p.plan = none) (htargets : (layer.targets p.settings p.pushed).1 = .ok targets) :
    (p.build layer).planner.plan = some targets := by
  rcases p.build_cases layer with ⟨_, hkept, -⟩ | ⟨-, -, ⟨_, hok, hplanner⟩ | ⟨_, herror, -⟩⟩
  · rw [hplan] at hkept
    simp at hkept
  · rw [htargets] at hok
    injection hok with hok
    rw [hplanner, hok]
  · rw [htargets] at herror
    simp at herror

theorem plan_first_push (layer : DataLayer) (settings : Settings) (filters : List Filter) :
    ((fresh settings).push layer filters).planner.plan = none := by
  rw [push_planner]
  exact ite_self none

/-- The first push of a planner decides its plan alone. -/
theorem build_of_first_push (layer : DataLayer) (settings : Settings) (filters : List Filter) :
    (((fresh settings).push layer filters).planner.build layer).answer =
      (layer.targets settings (layer.enforced filters)).1 := by
  rw [build_of_unplanned (plan_first_push layer settings filters), push_planner]
  rfl

/-- A request other than a push leaves the filters, one other than a pruning the columns, and none
    changes the settings. -/
theorem build_planner_frame (p : Planner) (layer : DataLayer) :
    (p.build layer).planner.settings = p.settings ∧ (p.build layer).planner.pushed = p.pushed ∧
      (p.build layer).planner.projection = p.projection := by
  rcases p.build_cases layer with ⟨_, -, -, h⟩ | ⟨-, -, ⟨_, -, h⟩ | ⟨_, -, h⟩⟩ <;> simp [h]

@[simp] theorem scan_planner (p : Planner) (layer : DataLayer) :
    (p.scan layer).planner = (p.build layer).planner := rfl

@[simp] theorem scan_answer (p : Planner) (layer : DataLayer) :
    (p.scan layer).answer = (p.build layer).answer.map (p.scanOf layer) := rfl

/-- A scan after the first push carries the filters that are enforced and the targets they narrow the
    scan to. -/
theorem scan_of_first_push {layer : DataLayer} {settings : Settings} {filters : List Filter}
    {plan : ScanPlan}
    (hscan : (((fresh settings).push layer filters).planner.scan layer).answer = .ok plan) :
    plan.pushed = layer.enforced filters ∧
      (layer.targets settings (layer.enforced filters)).1 = .ok plan.targets := by
  rw [scan_answer, build_of_first_push, except_map_eq_ok_iff] at hscan
  obtain ⟨targets, htargets, rfl⟩ := hscan
  refine ⟨?_, htargets⟩
  rw [push_planner]
  rfl

theorem scan_of_first_targets {layer : DataLayer} {settings : Settings} {filters : List Filter}
    {targets : List KeyTarget}
    (htargets : (layer.targets settings (layer.enforced filters)).1 = .ok targets) :
    (((fresh settings).push layer filters).planner.scan layer).answer =
      .ok (((fresh settings).push layer filters).planner.scanOf layer targets) := by
  rw [scan_answer, build_of_first_push, htargets]
  rfl

theorem after_prune (p : Planner) (layer : DataLayer) (columns : List String) :
    (p.after layer (.prune columns)).settings = p.settings ∧
      (p.after layer (.prune columns)).pushed = p.pushed ∧
      (p.after layer (.prune columns)).plan = p.plan ∧
      (p.after layer (.prune columns)).projection =
        if columns.all layer.table.hasColumn then some columns else p.projection := by
  simp only [after]
  cases hprune : p.prune layer columns with
  | ok q =>
      obtain ⟨hknown, rfl⟩ := prune_eq_ok_iff.1 hprune
      simp [hknown]
  | error e =>
      have hunknown : ¬ columns.all layer.table.hasColumn = true := by
        intro hknown
        rw [prune_eq_ok_iff.2 ⟨hknown, rfl⟩] at hprune
        simp at hprune
      simp [hunknown]

/-- What one request leaves of the settings, the filters and the columns. -/
theorem after_frame (p : Planner) (layer : DataLayer) (request : Request) :
    (p.after layer request).settings = p.settings ∧
      (p.after layer request).pushed = (request.filters?.map layer.enforced).getD p.pushed ∧
      (p.after layer request).projection =
        (request.projection? layer.table).or p.projection := by
  cases request with
  | prune columns =>
      obtain ⟨hsettings, hpushed, -, hprojection⟩ := p.after_prune layer columns
      refine ⟨hsettings, hpushed, ?_⟩
      rw [hprojection, Request.projection?]
      split <;> rfl
  | push filters => simp [after, Request.filters?, Request.projection?]
  | build => exact p.build_planner_frame layer
  | scan => exact p.build_planner_frame layer

/-! ### What a history leaves -/

/-- The plan, if there is one, was resolved for filters that the source enforces and that those of
    the planner equal, be they the same filters or not. -/
def Justified (layer : DataLayer) (p : Planner) : Prop :=
  ∀ targets, p.plan = some targets →
    ∃ planned, (p.pushed = planned ∨ Filter.sameList p.pushed planned = true) ∧
      (∀ f ∈ planned, layer.enforces f = true) ∧
      (layer.targets p.settings planned).1 = .ok targets

theorem justified_fresh (layer : DataLayer) (settings : Settings) :
    (fresh settings).Justified layer := by
  intro targets hplan
  simp [fresh] at hplan

/-- The filters a planner holds are enforced by the source, and its plan is justified. -/
def Consistent (layer : DataLayer) (p : Planner) : Prop :=
  (∀ f ∈ p.pushed, layer.enforces f = true) ∧ p.Justified layer

/-- A build answers for the filters that the planner holds, or gives the targets of others that they
    equal. -/
theorem Consistent.build_answer {layer : DataLayer} {p : Planner} (hp : p.Consistent layer) :
    (p.build layer).answer = (layer.targets p.settings p.pushed).1 ∨
      ∃ planned targets, Filter.sameList p.pushed (layer.enforced planned) = true ∧
        (layer.targets p.settings (layer.enforced planned)).1 = .ok targets ∧
        (p.build layer).answer = .ok targets := by
  rcases p.build_cases layer with ⟨targets, hplan, hanswer, -⟩ | ⟨-, hanswer, -⟩
  · obtain ⟨planned, hpushed, henforced, hok⟩ := hp.2 targets hplan
    have hall : layer.enforced planned = planned := List.filter_eq_self.2 henforced
    rcases hpushed with hsame | hequal
    · left
      rw [hanswer, hsame, hok]
    · right
      refine ⟨planned, targets, ?_, ?_, hanswer⟩
      · rwa [hall]
      · rwa [hall]
  · exact .inl hanswer

theorem consistent_build {p : Planner} {layer : DataLayer} (hp : p.Consistent layer) :
    (p.build layer).planner.Consistent layer := by
  obtain ⟨henforced, hjustified⟩ := hp
  rcases p.build_cases layer with ⟨_, -, -, h⟩ | ⟨-, -, ⟨targets, hok, h⟩ | ⟨_, -, h⟩⟩
  · rw [h]
    exact ⟨henforced, hjustified⟩
  · rw [h]
    refine ⟨henforced, ?_⟩
    intro planned hplanned
    obtain rfl := Option.some.inj hplanned
    exact ⟨p.pushed, .inl rfl, henforced, hok⟩
  · rw [h]
    exact ⟨henforced, hjustified⟩

/-- A push that keeps the plan was made with filters equal to those before it, which were equal to
    those the plan was resolved for. -/
theorem consistent_push {p : Planner} {layer : DataLayer} (hp : p.Consistent layer)
    (filters : List Filter) : (p.push layer filters).planner.Consistent layer := by
  rw [push_planner]
  refine ⟨fun f hf => (List.mem_filter.1 hf).2, ?_⟩
  intro targets hplan
  dsimp only at hplan ⊢
  split at hplan
  · next hsame =>
      obtain ⟨planned, hpushed, henforced, hok⟩ := hp.2 targets hplan
      refine ⟨planned, .inr ?_, henforced, hok⟩
      rcases hpushed with rfl | hpushed
      · exact hsame
      · exact Filter.sameList_trans hsame hpushed
  · simp at hplan

theorem consistent_after {p : Planner} {layer : DataLayer} (hp : p.Consistent layer)
    (request : Request) : (p.after layer request).Consistent layer := by
  cases request with
  | prune columns =>
      obtain ⟨hsettings, hpushed, hplan, -⟩ := p.after_prune layer columns
      simpa only [Consistent, Justified, hsettings, hpushed, hplan] using hp
  | push filters => exact consistent_push hp filters
  | build => exact consistent_build hp
  | scan => exact consistent_build hp

variable (layer : DataLayer) (settings : Settings) (requests : List Request)

/-- Whatever was asked before, the plan that a planner holds is justified. -/
theorem run_consistent : ((fresh settings).run layer requests).Consistent layer := by
  induction requests using List.reverseRecOn with
  | nil => exact ⟨by simp [fresh], justified_fresh layer settings⟩
  | append_singleton before request ih =>
      rw [run_append, run_singleton]
      exact consistent_after ih request

@[simp] theorem run_settings : ((fresh settings).run layer requests).settings = settings := by
  induction requests using List.reverseRecOn with
  | nil => rfl
  | append_singleton before request ih =>
      rw [run_append, run_singleton, (after_frame _ layer request).1, ih]

/-- A planner holds what the source enforces of the last push. -/
theorem run_pushed : ((fresh settings).run layer requests).pushed =
    layer.enforced ((lastPush requests).getD []) := by
  induction requests using List.reverseRecOn with
  | nil => rfl
  | append_singleton before request ih =>
      rw [run_append, run_singleton, (after_frame _ layer request).2.1, ih, lastPush_append]
      cases request.filters? with
      | none => rfl
      | some filters => rfl

/-- A planner scans the columns of the last pruning that succeeded. -/
theorem run_projection : ((fresh settings).run layer requests).projection =
    lastProjection layer.table requests := by
  induction requests using List.reverseRecOn with
  | nil => rfl
  | append_singleton before request ih =>
      rw [run_append, run_singleton, (after_frame _ layer request).2.2, ih, lastProjection_append]

end Planner

end TokenScan
