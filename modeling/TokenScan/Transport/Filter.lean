/-
Module: TokenScan.Transport.Filter
Purpose: Literals and filters as data items.
Main exports: the Shippable instances of Literal and Filter
-/
import TokenScan.Transport.Shape
import TokenScan.Filter.Basic

namespace TokenScan.Transport

open TokenScan.Cbor

/-- The names of the kinds of literals on the wire. -/
def literalNames : List String := ["Null", "Bool", "Int", "Float", "Text", "Bytes"]

/-- A truth value. -/
def bool? (item : Item) : Option Bool :=
  match item.untagged with
  | .bool b => some b
  | _ => none

instance : Shippable Literal where
  toItem
    | .null => .text "Null"
    | .bool b => variantOf "Bool" (.bool b)
    | .int n => variantOf "Int" (.int n.toInt)
    | .float bits => variantOf "Float" (.float bits)
    | .text s => variantOf "Text" (.text s)
    | .bytes bs => variantOf "Bytes" (.bytes bs)
  ofItem? item := do
    match ← variant? literalNames item with
    | (0, payload) => if payload.isUnit then some .null else none
    | (1, payload) => return .bool (← bool? (← payload.one?))
    | (2, payload) => return .int (Int64.ofInt (← int? 8 (← payload.one?)))
    | (3, payload) => return .float (← float? (← payload.one?))
    | (4, payload) => return .text (← text? (← payload.one?))
    | (5, payload) => return .bytes (← bytes? (← payload.one?))
    | _ => none

/-- The name of a comparison on the wire. -/
def comparisonName : Comparison → String
  | .equal => "EqualTo"
  | .nullSafeEqual => "EqualNullSafe"
  | .greater => "GreaterThan"
  | .greaterOrEqual => "GreaterThanOrEqual"
  | .less => "LessThan"
  | .lessOrEqual => "LessThanOrEqual"

/-- The name of a text match on the wire. -/
def textMatchName : TextMatch → String
  | .startsWith => "StringStartsWith"
  | .endsWith => "StringEndsWith"
  | .contains => "StringContains"

/-- The names of the kinds of filters on the wire. -/
def filterNames : List String :=
  ["EqualTo", "EqualNullSafe", "GreaterThan", "GreaterThanOrEqual", "LessThan", "LessThanOrEqual",
   "In", "IsNull", "IsNotNull", "StringStartsWith", "StringEndsWith", "StringContains",
   "And", "Or", "Not"]

/-- The item of a filter. -/
def filterItem : Filter → Item
  | .compare op column value =>
    variantOf (comparisonName op) (record [("column", toItem column), ("value", toItem value)])
  | .isIn column values =>
    variantOf "In" (record [("column", toItem column), ("values", toItem values)])
  | .isNull column => variantOf "IsNull" (record [("column", toItem column)])
  | .isNotNull column => variantOf "IsNotNull" (record [("column", toItem column)])
  | .matchText op column pattern =>
    variantOf (textMatchName op) (record [("column", toItem column), ("value", toItem pattern)])
  | .and left right => variantOf "And" (.array [filterItem left, filterItem right])
  | .or left right => variantOf "Or" (.array [filterItem left, filterItem right])
  | .not filter => variantOf "Not" (filterItem filter)

/-- A comparison with a constant. -/
def compare? (op : Comparison) (payload : Payload) : Option Filter := do
  let [column, value] ← fields? ["column", "value"] (← payload.one?) | none
  return .compare op (← ofItem? column) (← ofItem? value)

/-- A match of a text. -/
def matchText? (op : TextMatch) (payload : Payload) : Option Filter := do
  let [column, pattern] ← fields? ["column", "value"] (← payload.one?) | none
  return .matchText op (← ofItem? column) (← ofItem? pattern)

/-- The one column of a test for null. -/
def columnOnly? (payload : Payload) : Option String := do
  let [column] ← fields? ["column"] (← payload.one?) | none
  ofItem? column

/-- The filter of an item, down to a depth. -/
def filterWithin? : Nat → Item → Option Filter
  | 0, _ => none
  | depth + 1, item => do
    match ← variant? filterNames item with
    | (0, payload) => compare? .equal payload
    | (1, payload) => compare? .nullSafeEqual payload
    | (2, payload) => compare? .greater payload
    | (3, payload) => compare? .greaterOrEqual payload
    | (4, payload) => compare? .less payload
    | (5, payload) => compare? .lessOrEqual payload
    | (6, payload) =>
      let [column, values] ← fields? ["column", "values"] (← payload.one?) | none
      return .isIn (← ofItem? column) (← ofItem? values)
    | (7, payload) => (columnOnly? payload).map .isNull
    | (8, payload) => (columnOnly? payload).map .isNotNull
    | (9, payload) => matchText? .startsWith payload
    | (10, payload) => matchText? .endsWith payload
    | (11, payload) => matchText? .contains payload
    | (12, payload) =>
      let (left, right) ← payload.two?
      return .and (← filterWithin? depth left) (← filterWithin? depth right)
    | (13, payload) =>
      let (left, right) ← payload.two?
      return .or (← filterWithin? depth left) (← filterWithin? depth right)
    | (14, payload) => return .not (← filterWithin? depth (← payload.one?))
    | _ => none

instance : Shippable Filter where
  toItem := filterItem
  ofItem? item := filterWithin? (item.depth + 1) item

end TokenScan.Transport
