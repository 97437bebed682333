/-
Module: TokenScan.Settings.Reading
Purpose: Settings from a document. Each setting may be given once, a missing one has its default,
  and nothing else may stand in the document. The policy is a text, or a table with one empty entry
  of its name.
Main exports: Settings.ofDocument?, Settings.ofToml
-/
import TokenScan.Settings.Basic
import TokenScan.Toml.Document

namespace TokenScan.Settings

open TokenScan.Toml

/-- The name of the limit in documents. -/
def limitName : String := "max_partition_key_combinations"

/-- The name of the policy in documents. -/
def policyName : String := "on_cardinality_exceeded"

/-- What the statements so far have set, and the headers seen, the latest first. -/
structure Draft where
  limit : Option UInt64 := none
  policy : Option ExcessPolicy := none
  headers : List Path := []
deriving DecidableEq, Repr

namespace Draft

/-- Sets the limit, which must be new and fit 64 bits. -/
def setLimit (d : Draft) (n : Nat) : Option Draft :=
  if d.limit = none ∧ n < UInt64.size then some { d with limit := some (UInt64.ofNat n) } else none

/-- Sets the policy of a name, which must be new. -/
def setPolicy (d : Draft) (name : String) : Option Draft := do
  let policy ← ExcessPolicy.ofName? name
  if d.policy = none then return { d with policy := some policy } else none

/-- Opens the table of a header. The table of the policy may come after that of its entry, but not
    after a policy that was set otherwise. -/
def openTable (d : Draft) (path : Path) : Option Draft :=
  if path ∈ d.headers then none
  else
    let opened := { d with headers := path :: d.headers }
    match path with
    | [table] =>
      if table = policyName ∧ (d.policy = none ∨ d.headers ≠ []) then some opened else none
    | [table, entry] => if table = policyName then opened.setPolicy entry else none
    | _ => none

/-- Takes in an assignment, in the table of the latest header. -/
def assign (d : Draft) (path : Path) (value : Value) : Option Draft :=
  match d.headers.head?.getD [] ++ path, value with
  | [name], .natural n => if name = limitName then d.setLimit n else none
  | [name], .text policy => if name = policyName then d.setPolicy policy else none
  | [name], .choice policy => if name = policyName then d.setPolicy policy else none
  | [name, policy], .empty => if name = policyName then d.setPolicy policy else none
  | _, _ => none

/-- Takes in a statement. -/
def take (d : Draft) : Statement → Option Draft
  | .assign path value => d.assign path value
  | .header path => d.openTable path

/-- The settings of a finished draft; a table of the policy must have its entry. -/
def finish (d : Draft) : Option Settings :=
  if d.headers ≠ [] ∧ d.policy = none then none
  else
    let initial : Settings := {}
    some ⟨d.limit.getD initial.maxCombinations, d.policy.getD initial.onExcess⟩

end Draft

/-- The settings of some statements. -/
def ofDocument? (statements : List Statement) : Option Settings :=
  statements.foldlM Draft.take {} >>= Draft.finish

/-- The settings of a document, with a limit of at least one. -/
def ofToml (source : String) : Except SettingsError Settings :=
  match document? source >>= ofDocument? with
  | some settings => settings.validate
  | none => .error .unreadable

end TokenScan.Settings
