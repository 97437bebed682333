/-
Module: TokenScan.Plan.Error
Purpose: Why a plan fails, and the report that the host engine sees.
Main exports: PlanError, PlanError.errorClass, PlanError.message, PlanError.report,
  PlanError.ofResolve
-/
import TokenScan.Key.Error
import TokenScan.Schema.Table

namespace TokenScan

/-- Why planning fails. -/
inductive PlanError where
  | keyEncoding (error : EncodingError)
  | keyArity (expected found : Nat)
  | tooManyCombinations (requested : Nat) (limit : UInt64)
  | unknownColumn (keyspace table column : String)
  | resolver (report : Report)
deriving DecidableEq, Repr

namespace PlanError

/-- The class under which the failure is counted and reported. -/
def errorClass : PlanError → ErrorClass
  | .keyEncoding _ => .invalidInput
  | .keyArity _ _ => .invariantViolation
  | .tooManyCombinations _ _ => .limitExceeded
  | .unknownColumn _ _ _ => .invalidInput
  | .resolver report => report.errorClass

/-- What is said of the failure. -/
def message : PlanError → String
  | .keyEncoding error => error.message
  | .keyArity expected found =>
    "partition key arity mismatch: expected " ++ toString expected ++ " values, found " ++
      toString found
  | .tooManyCombinations requested limit =>
    "partition key combinations exceed limit: " ++ toString requested ++ " > " ++
      toString limit.toNat
  | .unknownColumn keyspace table column =>
    "unknown column '" ++ column ++ "' in projection of " ++ keyspace ++ "." ++ table
  | .resolver report => report.message

/-- The failure of a resolver as a failure of the plan. -/
def ofResolve : ResolveError → PlanError
  | .encoding error => .keyEncoding error
  | .arity expected found => .keyArity expected found
  | .failure report => .resolver report

/-- The column and the value that could not be encoded. -/
def pin? : PlanError → Option (String × String)
  | .keyEncoding error => some (error.column, error.value)
  | _ => none

/-- A value that does not encode is reported by the resolver, everything else the planner finds by
    the planner. -/
def report : PlanError → Report
  | .resolver report => report
  | e@(.keyEncoding _) =>
    { errorClass := e.errorClass, origin := .resolver, message := e.message, isKeyEncoding := true }
  | e => { errorClass := e.errorClass, origin := .planner, message := e.message }

end PlanError

/-- The report of columns that make no table. -/
def SchemaError.report (e : SchemaError) : Report :=
  { errorClass := .invalidInput, origin := .schema, message := e.message }

end TokenScan
