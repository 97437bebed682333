/-
Module: TokenScan.Key.Composite
Purpose: Serialized partition keys. A single component is the key itself; any other number of
  components is written one after the other, each with its length in two bytes in front and a zero
  byte behind.
Main exports: Key.Component, Key.compose, Key.encodeKey, Key.resolveWith, Key.resolve
-/
import TokenScan.Key.Encoding
import TokenScan.Schema.Table
import TokenScan.Ring.KeyTarget

namespace TokenScan.Key

open TokenScan.Number

/-- One encoded value of a key, with the column and the text it comes from. -/
structure Component where
  column : String
  value : String
  bytes : Bytes
deriving DecidableEq, Repr

/-- The longest component whose length fits its two bytes. -/
def maxComponentLength : Nat := 65535

/-- A component among several. -/
def framed (c : Component) : Except EncodingError Bytes :=
  if c.bytes.length ≤ maxComponentLength then .ok (bigEndian 2 c.bytes.length ++ c.bytes ++ [0])
  else .error ⟨c.column, c.value, .tooLong c.bytes.length maxComponentLength⟩

/-- The key of some components. -/
def compose : List Component → Except EncodingError Bytes
  | [c] => .ok c.bytes
  | components => (components.mapM framed).map List.flatten

/-- The component that a value makes for a key column. -/
def component (column : Column) (value : String) : Except EncodingError Component :=
  (encodeLiteral column value).map (⟨column.name, value, ·⟩)

/-- The key of one value for each partition key column, in key order. -/
def encodeKey (table : Table) (values : List String) : Except ResolveError Bytes :=
  let columns := table.keyColumns
  if columns.length ≠ values.length then .error (.arity columns.length values.length)
  else ((columns.zip values).mapM fun (column, value) => component column value) >>= compose
    |>.mapError .encoding

/-- The key of some values, with its token for a digest of sixteen bytes. -/
def resolveWith (digest : Bytes → Bytes) (table : Table) (partitioner : Partitioner)
    (values : List String) : Except ResolveError KeyTarget :=
  (encodeKey table values).map fun key => ⟨key, partitioner.tokenWith digest key⟩

/-- The key of some values, with its token. -/
def resolve : Table → Partitioner → List String → Except ResolveError KeyTarget :=
  resolveWith Hash.Md5.digest

end TokenScan.Key
