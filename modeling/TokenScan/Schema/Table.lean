/-
Module: TokenScan.Schema.Table
Purpose: Tables. A table is built from columns in any order, which must have distinct names,
  distinct places among the key columns of a kind, and at least one partition key column; it holds
  them in row order. A table that was shipped is taken as it comes.
Main exports: Table, SchemaError, SchemaError.message, Table.ofColumns, Table.column?,
  Table.keyColumns, Table.keyNames, Table.isKeyColumn
-/
import TokenScan.Schema.Column

namespace TokenScan

/-- A table and its columns in row order. -/
structure Table where
  keyspace : String
  name : String
  columns : List Column
deriving DecidableEq, Repr, Inhabited

/-- Why columns do not make a table. -/
inductive SchemaError where
  | noPartitionKey (keyspace table : String)
  | duplicateColumn (keyspace table column : String)
  | duplicatePosition (keyspace table : String) (kind : ColumnKind) (position : UInt64)
deriving DecidableEq, Repr

namespace SchemaError

/-- What is said of the columns. -/
def message : SchemaError → String
  | .noPartitionKey keyspace table =>
    "table " ++ keyspace ++ "." ++ table ++ " declares no partition key columns"
  | .duplicateColumn keyspace table column =>
    "duplicate column '" ++ column ++ "' in table " ++ keyspace ++ "." ++ table
  | .duplicatePosition keyspace table kind position =>
    "duplicate " ++ kind.text ++ " position " ++ toString position.toNat ++ " in table " ++
      keyspace ++ "." ++ table

end SchemaError

namespace Table

/-- Two key columns of one kind at one position. -/
def samePlace (a b : Column) : Bool :=
  a.kind.isKey && a.kind = b.kind && a.position = b.position

/-- The first column, in the order given, that repeats a name or a key place of one before it; at
    one column the name is looked at first. -/
def firstClash (keyspace table : String) (seen : List Column) : List Column → Option SchemaError
  | [] => none
  | c :: rest =>
    if seen.any (·.name = c.name) then some (.duplicateColumn keyspace table c.name)
    else if seen.any (samePlace c) then some (.duplicatePosition keyspace table c.kind c.position)
    else firstClash keyspace table (c :: seen) rest

/-- The table with these columns. -/
def ofColumns (keyspace name : String) (columns : List Column) : Except SchemaError Table :=
  match firstClash keyspace name [] columns with
  | some clash => .error clash
  | none =>
    if columns.any Column.isPartitionKey then .ok ⟨keyspace, name, columns.mergeSort Column.before⟩
    else .error (.noPartitionKey keyspace name)

/-- The column of a name. -/
def column? (t : Table) (name : String) : Option Column :=
  t.columns.find? (·.name = name)

/-- The table has a column of this name. -/
def hasColumn (t : Table) (name : String) : Bool :=
  (t.column? name).isSome

/-- The partition key columns in key order. -/
def keyColumns (t : Table) : List Column :=
  t.columns.filter Column.isPartitionKey

/-- The names of the partition key columns in key order. -/
def keyNames (t : Table) : List String :=
  t.keyColumns.map Column.name

/-- The clustering key columns in key order. -/
def clusteringColumns (t : Table) : List Column :=
  t.columns.filter (·.kind = .clusteringKey)

/-- The name is that of a partition key column. -/
def isKeyColumn (t : Table) (name : String) : Bool :=
  (t.column? name).any Column.isPartitionKey

end Table

end TokenScan
