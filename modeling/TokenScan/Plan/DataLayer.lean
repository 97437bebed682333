/-
Module: TokenScan.Plan.DataLayer
Purpose: What a planner knows of the table it plans for, and the data layer of a table whose keys
  are resolved by the encoding of their values.
Main exports: OutputPartitioning, DataLayer, DataLayer.ofTableWith, DataLayer.ofTable
-/
import TokenScan.Key.Composite
import TokenScan.Filter.Basic

namespace TokenScan

/-- How the rows of a scan are divided, as told to the host engine. -/
structure OutputPartitioning where
  count : UInt64
deriving DecidableEq, Repr, Inhabited

/-- The side of a table that planning needs. -/
structure DataLayer where
  table : Table
  partitioner : Partitioner
  /-- The number of splits of a scan. -/
  splitCount : UInt64
  /-- The target of one value for each partition key column, in key order. -/
  resolve : List String → Except ResolveError KeyTarget
  /-- The row scanner evaluates the filter itself. -/
  supports : Filter → Bool := fun _ => false
  /-- The division that is told to the host engine. -/
  outputPartitioning : OutputPartitioning := ⟨splitCount⟩

namespace DataLayer

/-- The data layer of a table whose row scanner evaluates the filters that look at nothing but the
    given columns, for a digest of sixteen bytes. -/
def ofTableWith (digest : Bytes → Bytes) (table : Table) (partitioner : Partitioner)
    (splitCount : UInt64) (filterable : List String) : DataLayer :=
  { table := table
    partitioner := partitioner
    splitCount := splitCount
    resolve := Key.resolveWith digest table partitioner
    supports := fun f => f.references ≠ [] && f.references.all fun c => filterable.contains c }

/-- The data layer of a table, with the digest that clusters use. -/
def ofTable : Table → Partitioner → UInt64 → List String → DataLayer :=
  ofTableWith Hash.Md5.digest

end DataLayer

end TokenScan
