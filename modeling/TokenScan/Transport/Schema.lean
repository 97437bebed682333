/-
Module: TokenScan.Transport.Schema
Purpose: Column types, columns, tables and settings as data items.
Main exports: the Shippable instances of ColumnType, ColumnKind, Column, Table, ExcessPolicy and
  Settings
-/
import TokenScan.Transport.Shape
import TokenScan.Schema.Table
import TokenScan.Settings.Basic

namespace TokenScan.Transport

open TokenScan.Cbor

/-- The names of the native types on the wire, in the order of `ColumnType.natives`. -/
def nativeTypeNames : List String :=
  ["Ascii", "BigInt", "Blob", "Boolean", "Counter", "Date", "Double", "Float", "Inet", "Int",
   "SmallInt", "Text", "Timestamp", "TimeUuid", "TinyInt", "Uuid", "VarChar", "VarInt"]

instance : Shippable ColumnType where
  toItem
    | .other name => variantOf "Other" (.text name)
    | native => .text (nativeTypeNames.getD (ColumnType.natives.idxOf native) "")
  ofItem? item := do
    let (i, payload) ← variant? (nativeTypeNames ++ ["Other"]) item
    match ColumnType.natives[i]? with
    | some native => if payload.isUnit then some native else none
    | none => return .other (← text? (← payload.one?))

/-- The names of the column kinds on the wire, by rank. -/
def kindNames : List String := ["PartitionKey", "ClusteringKey", "Static", "Value"]

instance : Shippable ColumnKind where
  toItem kind := .text (kindNames.getD kind.rank "")
  ofItem? := plainVariant? kindNames [.partitionKey, .clusteringKey, .static, .value]

instance : Shippable Column where
  toItem c := record
    [("name", toItem c.name), ("kind", toItem c.kind), ("position", toItem c.position),
     ("cql_type", toItem c.type)]
  ofItem? item := do
    let [name, kind, position, type] ← fields? ["name", "kind", "position", "cql_type"] item | none
    return ⟨← ofItem? name, ← ofItem? kind, ← ofItem? position, ← ofItem? type⟩

instance : Shippable Table where
  toItem t := record
    [("keyspace", toItem t.keyspace), ("table", toItem t.name), ("fields", toItem t.columns)]
  ofItem? item := do
    let [keyspace, name, columns] ← fields? ["keyspace", "table", "fields"] item | none
    return ⟨← ofItem? keyspace, ← ofItem? name, ← ofItem? columns⟩

instance : Shippable ExcessPolicy where
  toItem policy := .text policy.name
  ofItem? := plainVariant? ["reject", "full_scan"] [.reject, .fullScan]

/-- The value of a field, or the one it has when it is missing. -/
def orDefault {α : Type} [Shippable α] (value : α) : Option Item → Option α
  | some item => ofItem? item
  | none => some value

instance : Shippable Settings where
  toItem s := record
    [("max_partition_key_combinations", toItem s.maxCombinations),
     ("on_cardinality_exceeded", toItem s.onExcess)]
  ofItem? item := do
    let [limit, policy] ←
      fieldSlots ["max_partition_key_combinations", "on_cardinality_exceeded"] true item | none
    let initial : Settings := {}
    return ⟨← orDefault initial.maxCombinations limit, ← orDefault initial.onExcess policy⟩

end TokenScan.Transport
