/-
Module: TokenScan.Plan.Scan
Purpose: The finished description of one scan, from which the row scanners read what is theirs.
Main exports: ScanPlan, ScanPlan.isRestricted, ScanPlan.targetsFor, ScanPlan.splitsToVisit,
  ScanPlan.selects, ScanPlan.readersAt, ScanPlan.readers, ScanPlan.same
-/
import TokenScan.Plan.DataLayer
import TokenScan.Ring.Split

namespace TokenScan

/-- One logical scan: what to read, what is still to be filtered, and how the ring is divided. -/
structure ScanPlan where
  keyspace : String
  table : String
  columns : List String
  pushed : List Filter
  /-- The pushed filters that the targets do not guarantee already. -/
  residual : List Filter
  targets : List KeyTarget
  partitioner : Partitioner
  splits : List Split
  partitioning : OutputPartitioning
deriving Repr, Inhabited

namespace ScanPlan

/-- The targets narrow the scan. -/
def isRestricted (p : ScanPlan) : Bool :=
  p.targets ≠ []

/-- The targets whose tokens lie in the split. -/
def targetsFor (p : ScanPlan) (s : Split) : List KeyTarget :=
  p.targets.filter (·.overlaps s.range)

/-- The splits that may hold rows: all of them, or those that hold the token of a target. -/
def splitsToVisit (p : ScanPlan) : List Split :=
  p.splits.filter fun s => !p.isRestricted || p.targets.any (·.overlaps s.range)

/-- A row scanner on the split reads the partition of this key and token. -/
def selects (p : ScanPlan) (s : Split) (key : Bytes) (token : Token) : Bool :=
  s.range.contains token &&
    (p.targetsFor s = [] || (p.targetsFor s).any fun t => !t.skips key token)

/-- The splits that read the partition of this key and token. -/
def readersAt (p : ScanPlan) (key : Bytes) (token : Token) : List Split :=
  p.splitsToVisit.filter fun s => p.selects s key token

/-- The indices of the splits that read the partition of a key. -/
def readers (p : ScanPlan) (key : Bytes) : List UInt64 :=
  (p.readersAt key (p.partitioner.tokenOf key)).map Split.index

/-- Equality of plans, where floats in filters are compared as numbers. -/
def same (p q : ScanPlan) : Bool :=
  p.keyspace = q.keyspace && p.table = q.table && p.columns = q.columns &&
    Filter.sameList p.pushed q.pushed && Filter.sameList p.residual q.residual &&
    p.targets = q.targets && p.partitioner = q.partitioner && p.splits = q.splits &&
    p.partitioning = q.partitioning

end ScanPlan

end TokenScan
