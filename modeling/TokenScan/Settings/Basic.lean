/-
Module: TokenScan.Settings.Basic
Purpose: What bounds a plan: the greatest number of key combinations, and what to do beyond it.
Main exports: ExcessPolicy, Settings, SettingsError, Settings.validate
-/
import TokenScan.Report

namespace TokenScan

/-- What a planner does with more combinations than the limit. -/
inductive ExcessPolicy where
  /-- The plan fails. -/
  | reject
  /-- The plan narrows nothing, and every split is scanned. -/
  | fullScan
deriving DecidableEq, Repr, Inhabited

/-- The settings of a planner. -/
structure Settings where
  maxCombinations : UInt64 := 10000
  onExcess : ExcessPolicy := .reject
deriving DecidableEq, Repr, Inhabited

/-- Why settings are refused. -/
inductive SettingsError where
  /-- The document is not one that gives settings. -/
  | unreadable
  /-- The limit is zero. -/
  | zeroLimit
deriving DecidableEq, Repr

namespace SettingsError

/-- What is said of the settings. -/
def message : SettingsError → String
  | .unreadable => "toml parse error"
  | .zeroLimit => "max_partition_key_combinations must be at least 1"

/-- Settings are refused as invalid input. -/
def report (e : SettingsError) : Report :=
  { errorClass := .invalidInput, origin := .config, message := e.message }

end SettingsError

namespace ExcessPolicy

/-- The name of the policy in documents. -/
def name : ExcessPolicy → String
  | .reject => "reject"
  | .fullScan => "full_scan"

/-- The policy of a name. -/
def ofName? (name : String) : Option ExcessPolicy :=
  [reject, fullScan].find? (·.name = name)

end ExcessPolicy

namespace Settings

/-- A limit of zero is refused. -/
def validate (s : Settings) : Except SettingsError Settings :=
  if s.maxCombinations = 0 then .error .zeroLimit else .ok s

end Settings

end TokenScan
