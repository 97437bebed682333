/-
Module: TokenScan.Key.Error
Purpose: Why a key cannot be built: a value does not encode for its column, the number of values is
  not that of the key columns, or the resolver itself failed.
Main exports: EncodingFault, EncodingError, EncodingError.message, ResolveError
-/
import TokenScan.Report
import TokenScan.Schema.ColumnType

namespace TokenScan

/-- What is wrong with a value. -/
inductive EncodingFault where
  | malformed (type : ColumnType)
  | outOfRange (type : ColumnType)
  | unsupported (type : ColumnType)
  | tooLong (length limit : Nat)
deriving DecidableEq, Repr

namespace EncodingFault

/-- What is said of the fault. -/
def message : EncodingFault → String
  | .malformed type => "not a valid " ++ type.name ++ " literal"
  | .outOfRange type => "out of range for " ++ type.name
  | .unsupported type => "type " ++ type.name ++ " cannot be used in a partition key filter"
  | .tooLong length limit =>
    "component of " ++ toString length ++ " bytes exceeds the composite key limit of " ++
      toString limit

end EncodingFault

/-- A value that cannot be part of a key, with the column it was meant for. -/
structure EncodingError where
  column : String
  value : String
  fault : EncodingFault
deriving DecidableEq, Repr

namespace EncodingError

/-- What is said of the value and its fault. -/
def message (e : EncodingError) : String :=
  "cannot encode value '" ++ e.value ++ "' for partition key column '" ++ e.column ++ "': " ++
    e.fault.message

end EncodingError

/-- Why a tuple of values has no key. -/
inductive ResolveError where
  | encoding (error : EncodingError)
  | arity (expected found : Nat)
  | failure (report : Report)
deriving DecidableEq, Repr

end TokenScan
