/-
Module: TokenScan.Schema.Column
Purpose: One column of a table: its role, its place among the columns of that role, and its type.
Main exports: ColumnKind, Column, Column.before
-/
import TokenScan.Schema.ColumnType

namespace TokenScan

/-- The role of a column, in the order in which a row lists them. -/
inductive ColumnKind where
  | partitionKey
  | clusteringKey
  | static
  | value
deriving DecidableEq, Repr, Inhabited

namespace ColumnKind

/-- The place of the role in a row. -/
def rank : ColumnKind → Nat
  | .partitionKey => 0
  | .clusteringKey => 1
  | .static => 2
  | .value => 3

/-- The role in words. -/
def text : ColumnKind → String
  | .partitionKey => "partition key"
  | .clusteringKey => "clustering key"
  | .static => "static column"
  | .value => "value column"

/-- Key columns need places of their own; the order of the others says nothing. -/
def isKey : ColumnKind → Bool
  | .partitionKey | .clusteringKey => true
  | .static | .value => false

end ColumnKind

/-- A column; `position` orders the columns of one kind. -/
structure Column where
  name : String
  kind : ColumnKind
  position : UInt64
  type : ColumnType
deriving DecidableEq, Repr, Inhabited

namespace Column

/-- A column of the partition key. -/
def isPartitionKey (c : Column) : Bool :=
  c.kind = .partitionKey

/-- The order of the columns in a row: by kind, then position, then name. -/
def before (a b : Column) : Bool :=
  if a.kind ≠ b.kind then a.kind.rank < b.kind.rank
  else if a.position ≠ b.position then a.position < b.position
  else a.name ≤ b.name

end Column

end TokenScan
