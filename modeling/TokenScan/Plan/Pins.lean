/-
Module: TokenScan.Plan.Pins
Purpose: The texts that a list of filters allows in each key column. Only filters at the top of the
  list pin, and since the list is a conjunction, a column pinned more than once keeps the texts that
  every pin allows.
Main exports: Filter.pinOn, Pins, pinnedTexts, Pins.ofFilters
-/
import TokenScan.Filter.Basic

namespace TokenScan

/-- The texts that a filter allows in a column, if it pins that column. -/
def Filter.pinOn (column : String) (f : Filter) : Option TextSet :=
  if f.shape.column? = some column then some (.ofList (f.shape.literals.map Literal.render))
  else none

/-- The texts that all pins on a column allow, if there is a pin on it. -/
def pinnedTexts (filters : List Filter) (column : String) : Option TextSet :=
  match filters.filterMap (·.pinOn column) with
  | [] => none
  | first :: rest => some (rest.foldl TextSet.inter first)

/-- The pinned columns in increasing order, each with the texts it may hold. -/
abbrev Pins := List (String × TextSet)

namespace Pins

/-- What the filters pin among the given columns. -/
def ofFilters (filters : List Filter) (columns : List String) : Pins :=
  (TextSet.ofList columns).filterMap fun column =>
    (pinnedTexts filters column).map fun texts => (column, texts)

/-- The texts of a column, if it is pinned. -/
def texts? (pins : Pins) (column : String) : Option TextSet :=
  pins.lookup column

end Pins

end TokenScan
