/-
Module: TokenScan.Report
Purpose: The one shape in which every failure reaches the host engine: a class, the part of the
  planner it comes from, a message, and whether a value could not be encoded into a key.
Main exports: ErrorClass, ErrorOrigin, Report, Report.withClass
-/

namespace TokenScan

/-- What kind of failure it is. -/
inductive ErrorClass where
  | corruption
  | internal
  | invalidInput
  | limitExceeded
  | unsupported
  | invariantViolation
deriving DecidableEq, Repr, Inhabited

namespace ErrorClass

/-- The word for the class in reports. -/
def text : ErrorClass → String
  | .corruption => "corruption"
  | .internal => "internal"
  | .invalidInput => "invalid_input"
  | .limitExceeded => "limit_exceeded"
  | .unsupported => "unsupported"
  | .invariantViolation => "invariant_violation"

end ErrorClass

/-- Where the failure comes from. -/
inductive ErrorOrigin where
  | config
  | planner
  | resolver
  | schema
  | serialize
deriving DecidableEq, Repr, Inhabited

namespace ErrorOrigin

/-- The word for the origin in reports. -/
def text : ErrorOrigin → String
  | .config => "config"
  | .planner => "planner"
  | .resolver => "resolver"
  | .schema => "schema"
  | .serialize => "serialize"

end ErrorOrigin

/-- A failure as the host engine sees it. -/
structure Report where
  errorClass : ErrorClass
  origin : ErrorOrigin
  message : String
  isKeyEncoding : Bool := false
deriving DecidableEq, Repr, Inhabited

namespace Report

/-- The message after the origin and the class. -/
def withClass (r : Report) : String :=
  r.origin.text ++ ":" ++ r.errorClass.text ++ ": " ++ r.message

end Report

end TokenScan
