/-
Module: TokenScan.Schema.ColumnType
Purpose: The declared types of columns. The native types are named here; every other type (a
  collection, a tuple, a frozen wrapper, a user type) is carried by its text.
Main exports: ColumnType, ColumnType.name, ColumnType.isNative, ColumnType.ofName
-/
import TokenScan.Text.Blank

namespace TokenScan

/-- The type of a column. -/
inductive ColumnType where
  | ascii
  | bigint
  | blob
  | boolean
  | counter
  | date
  | double
  | float
  | inet
  | int
  | smallint
  | text
  | timestamp
  | timeuuid
  | tinyint
  | uuid
  | varchar
  | varint
  | other (name : String)
deriving DecidableEq, Repr, Inhabited

namespace ColumnType

/-- The native types, in alphabetical order. -/
def natives : List ColumnType :=
  [.ascii, .bigint, .blob, .boolean, .counter, .date, .double, .float, .inet, .int, .smallint,
   .text, .timestamp, .timeuuid, .tinyint, .uuid, .varchar, .varint]

/-- The canonical name of a type. -/
def name : ColumnType → String
  | .ascii => "ascii"
  | .bigint => "bigint"
  | .blob => "blob"
  | .boolean => "boolean"
  | .counter => "counter"
  | .date => "date"
  | .double => "double"
  | .float => "float"
  | .inet => "inet"
  | .int => "int"
  | .smallint => "smallint"
  | .text => "text"
  | .timestamp => "timestamp"
  | .timeuuid => "timeuuid"
  | .tinyint => "tinyint"
  | .uuid => "uuid"
  | .varchar => "varchar"
  | .varint => "varint"
  | .other name => name

/-- Values of a native type can be pinned by a literal; other types cannot be part of a pinned key.
    -/
def isNative : ColumnType → Bool
  | .other _ => false
  | _ => true

/-- The type that a declaration names: a native one in any ASCII case, else the text itself. Blanks
    around the declaration do not count. -/
def ofName (declared : String) : ColumnType :=
  let trimmed := Text.trim declared.toList
  let lower := String.ofList (trimmed.map Char.toLower)
  (natives.find? fun t => t.name = lower).getD (.other (String.ofList trimmed))

end ColumnType

end TokenScan
