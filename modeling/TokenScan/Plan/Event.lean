/-
Module: TokenScan.Plan.Event
Purpose: What a planner tells about its work: events, the counters that they feed, and the recorder
  that sends each event either to the innermost open sink or to the counters.
Main exports: Outcome, Event, Counters, Counters.record, Recorder, Recorder.record,
  Recorder.openSink, Recorder.closeSink
-/
import TokenScan.Report

namespace TokenScan

/-- How a plan came out. -/
inductive Outcome where
  /-- Every key column was pinned, and this many keys were resolved. -/
  | targeted (keys : Nat)
  /-- No complete key could be formed, or none is left. -/
  | unrestricted
deriving DecidableEq, Repr, Inhabited

/-- A step of planning that is worth telling. -/
inductive Event where
  | filtersPushed (pushed unsupported : Nat)
  | planBuilt (outcome : Outcome)
  | planFailed (errorClass : ErrorClass)
  | cardinalityRejected (requested : Nat) (limit : UInt64)
  | cardinalityDegraded (requested : Nat) (limit : UInt64)
deriving DecidableEq, Repr, Inhabited

/-- Totals over planning steps; none of them grows past the greatest 64-bit number. -/
structure Counters where
  pushCalls : UInt64 := 0
  filtersPushed : UInt64 := 0
  filtersUnsupported : UInt64 := 0
  plansTargeted : UInt64 := 0
  plansUnrestricted : UInt64 := 0
  plansFailed : UInt64 := 0
  keysResolved : UInt64 := 0
  maxKeys : UInt64 := 0
  cardinalityRejections : UInt64 := 0
  cardinalityDegradations : UInt64 := 0
deriving DecidableEq, Repr, Inhabited

namespace Counters

/-- A number in 64 bits, cut off at the greatest. -/
def clamp (n : Nat) : UInt64 :=
  UInt64.ofNat (min n (UInt64.size - 1))

/-- Addition that stops at the greatest 64-bit number. -/
def plus (total : UInt64) (n : Nat) : UInt64 :=
  clamp (total.toNat + n)

/-- The counters after an event. -/
def record (c : Counters) : Event → Counters
  | .filtersPushed pushed unsupported =>
    { c with
      pushCalls := plus c.pushCalls 1
      filtersPushed := plus c.filtersPushed pushed
      filtersUnsupported := plus c.filtersUnsupported unsupported }
  | .planBuilt (.targeted keys) =>
    { c with
      plansTargeted := plus c.plansTargeted 1
      keysResolved := plus c.keysResolved keys
      maxKeys := max c.maxKeys (clamp keys) }
  | .planBuilt .unrestricted => { c with plansUnrestricted := plus c.plansUnrestricted 1 }
  | .planFailed _ => { c with plansFailed := plus c.plansFailed 1 }
  | .cardinalityRejected _ _ =>
    { c with cardinalityRejections := plus c.cardinalityRejections 1 }
  | .cardinalityDegraded _ _ =>
    { c with cardinalityDegradations := plus c.cardinalityDegradations 1 }

/-- The counters after some events. -/
def recordAll (c : Counters) (events : List Event) : Counters :=
  events.foldl record c

end Counters

/-- Where events go: the open sinks, the innermost first, each with the events it has taken in, and
    the counters for the events that no sink takes. -/
structure Recorder where
  counters : Counters := {}
  sinks : List (List Event) := []
deriving DecidableEq, Repr, Inhabited

namespace Recorder

/-- Events go to the innermost open sink, and to the counters when there is none. -/
def record (r : Recorder) (events : List Event) : Recorder :=
  match r.sinks with
  | [] => { r with counters := r.counters.recordAll events }
  | innermost :: outer => { r with sinks := (innermost ++ events) :: outer }

/-- Opens a sink inside those that are open. -/
def openSink (r : Recorder) : Recorder :=
  { r with sinks := [] :: r.sinks }

/-- Closes the innermost sink and gives the events it has taken in. -/
def closeSink (r : Recorder) : List Event × Recorder :=
  match r.sinks with
  | [] => ([], r)
  | innermost :: outer => (innermost, { r with sinks := outer })

/-- Sets all counters to zero. -/
def resetCounters (r : Recorder) : Recorder :=
  { r with counters := {} }

end Recorder

end TokenScan
