/-
Module: TokenScan.Plan.Planner
Purpose: The planner of one scan. The host engine prunes columns and pushes filters, then asks for
  the plan; each request gives an answer, the planner after it and the events it caused.
Main exports: Phase, Planner, Step, DataLayer.targetsWith, DataLayer.targets, Planner.prune,
  Planner.readSchema, Planner.push, Planner.build, Planner.scan
-/
import TokenScan.Plan.Combination
import TokenScan.Plan.Error
import TokenScan.Plan.Event
import TokenScan.Plan.Scan
import TokenScan.Settings.Basic

namespace TokenScan

/-- How far a planner has come. -/
inductive Phase where
  | initialized
  | schemaFixed
  | filtersFixed
  | planned
deriving DecidableEq, Repr, Inhabited

namespace Phase

/-- The name by which the host engine knows the phase. -/
def name : Phase → String
  | .initialized => "Initialized"
  | .schemaFixed => "SchemaFixed"
  | .filtersFixed => "FiltersFixed"
  | .planned => "Planned"

end Phase

/-- The state of a planner; the data layer is handed to each request. -/
structure Planner where
  settings : Settings := {}
  phase : Phase := .initialized
  /-- The columns asked for, once the engine has pruned. -/
  projection : Option (List String) := none
  pushed : List Filter := []
  /-- The targets already resolved for the pushed filters. -/
  plan : Option (List KeyTarget) := none
deriving Repr, Inhabited

/-- What comes of one request. -/
structure Step (α : Type) where
  answer : α
  planner : Planner
  events : List Event := []

/-- The filter pins a partition key column of the table. -/
def Table.pinsKey (t : Table) (f : Filter) : Bool :=
  f.shape.column?.any t.isKeyColumn

/-- A filter that pins a key column is enforced by the plan, any other by the row scanner if it can.
    -/
def DataLayer.enforces (layer : DataLayer) (f : Filter) : Bool :=
  layer.table.pinsKey f || layer.supports f

/-- The resolver of a data layer, asked for the target of one tuple. -/
def DataLayer.ask (layer : DataLayer) (tuple : List String) : ExceptT ResolveError Id KeyTarget :=
  .mk (pure (layer.resolve tuple))

/-- The targets of all tuples, in ring order, where `ask` is the way to the target of one; distinct
    texts may encode to one key. The first tuple without a key fails the whole. -/
@[specialize]
def resolveAllWith {m : Type → Type} [Monad m]
    (ask : List String → ExceptT ResolveError m KeyTarget) (keys : List (List String)) :
    m (Except PlanError (List KeyTarget)) := do
  let resolved ← (keys.mapM ask).run
  return (resolved.mapError .ofResolve).map KeyTarget.ringOrder

/-- The targets that some pushed filters narrow the scan to, and the events on the way, where `ask` is
    the way to the target of one tuple. The number of combinations is checked before any is
    resolved. -/
@[specialize]
def DataLayer.targetsWith {m : Type → Type} [Monad m] (layer : DataLayer)
    (ask : List String → ExceptT ResolveError m KeyTarget) (settings : Settings)
    (pushed : List Filter) : m (Except PlanError (List KeyTarget) × List Event) :=
  let columns := layer.table.keyNames
  let pins := Pins.ofFilters pushed columns
  match combinationCount pins columns with
  | none => return (.ok [], [])
  | some requested =>
    let limit := settings.maxCombinations
    if limit.toNat < requested then
      match settings.onExcess with
      | .reject =>
        return (.error (.tooManyCombinations requested limit),
          [.cardinalityRejected requested limit])
      | .fullScan => return (.ok [], [.cardinalityDegraded requested limit])
    else do
      let found ← resolveAllWith ask (combinations pins columns)
      return (found, [])

/-- The targets that some pushed filters narrow the scan to, and the events on the way. -/
def DataLayer.targets (layer : DataLayer) (settings : Settings) (pushed : List Filter) :
    Except PlanError (List KeyTarget) × List Event :=
  (layer.targetsWith layer.ask settings pushed).run

/-- The outcome that a list of targets stands for. -/
def Outcome.ofTargets (targets : List KeyTarget) : Outcome :=
  if targets = [] then .unrestricted else .targeted targets.length

namespace Planner

/-- Restricts the scan to some columns, all of which the table must have; the last request counts.
    -/
def prune (p : Planner) (layer : DataLayer) (columns : List String) : Except PlanError Planner :=
  match columns.find? (!layer.table.hasColumn ·) with
  | some unknown => .error (.unknownColumn layer.table.keyspace layer.table.name unknown)
  | none =>
    .ok { p with
      projection := some columns
      phase := if p.phase = .initialized then .schemaFixed else p.phase }

/-- The columns that the scan gives: those asked for, or all in row order. -/
def readSchema (p : Planner) (layer : DataLayer) : List Column :=
  match p.projection with
  | some columns => columns.filterMap layer.table.column?
  | none => layer.table.columns

/-- Keeps the filters that the source enforces, in place of any it held, and gives back the others
    in their order. A plan for the same filters stays. -/
def push (p : Planner) (layer : DataLayer) (filters : List Filter) : Step (List Filter) :=
  let (pushed, unsupported) := filters.partition layer.enforces
  { answer := unsupported
    planner := { p with
      pushed := pushed
      phase := .filtersFixed
      plan := if Filter.sameList pushed p.pushed then p.plan else none }
    events := [.filtersPushed pushed.length unsupported.length] }

/-- The targets of the pushed filters; none means that nothing is narrowed. A plan once built is
    kept, a failure changes nothing. -/
def build (p : Planner) (layer : DataLayer) : Step (Except PlanError (List KeyTarget)) :=
  match p.plan with
  | some targets => { answer := .ok targets, planner := { p with phase := .planned } }
  | none =>
    match layer.targets p.settings p.pushed with
    | (.ok targets, events) =>
      { answer := .ok targets
        planner := { p with plan := some targets, phase := .planned }
        events := events ++ [.planBuilt (.ofTargets targets)] }
    | (.error e, events) =>
      { answer := .error e, planner := p, events := events ++ [.planFailed e.errorClass] }

/-- The scan of some targets. What pins the key is guaranteed by the targets, when there are any. -/
def scanOf (p : Planner) (layer : DataLayer) (targets : List KeyTarget) : ScanPlan :=
  { keyspace := layer.table.keyspace
    table := layer.table.name
    columns := (p.readSchema layer).map Column.name
    pushed := p.pushed
    residual := if targets = [] then p.pushed else p.pushed.filter (!layer.table.pinsKey ·)
    targets := targets
    partitioner := layer.partitioner
    splits := layer.partitioner.splits layer.splitCount
    partitioning := layer.outputPartitioning }

/-- Builds the plan and puts it together with all that a row scanner needs. -/
def scan (p : Planner) (layer : DataLayer) : Step (Except PlanError ScanPlan) :=
  let step := p.build layer
  { answer := step.answer.map (p.scanOf layer), planner := step.planner, events := step.events }

end Planner

end TokenScan
