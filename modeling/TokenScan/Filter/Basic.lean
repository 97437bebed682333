/-
Module: TokenScan.Filter.Basic
Purpose: Filters as a host engine hands them over: a list read as a conjunction, each member a tree.
  The planner never evaluates a filter; it only recognises the shapes that pin a column.
Main exports: Comparison, TextMatch, Filter, Shape, Filter.shape, Filter.columns, Filter.references,
  Filter.same
-/
import TokenScan.Filter.Literal
import TokenScan.Text.Sorted

namespace TokenScan

/-- The relation between a column and a constant. -/
inductive Comparison where
  | equal
  | nullSafeEqual
  | greater
  | greaterOrEqual
  | less
  | lessOrEqual
deriving DecidableEq, Repr, Inhabited

/-- Where a text is looked for in a column. -/
inductive TextMatch where
  | startsWith
  | endsWith
  | contains
deriving DecidableEq, Repr, Inhabited

/-- A filter tree. -/
inductive Filter where
  | compare (op : Comparison) (column : String) (value : Literal)
  | isIn (column : String) (values : List Literal)
  | isNull (column : String)
  | isNotNull (column : String)
  | matchText (op : TextMatch) (column : String) (pattern : String)
  | and (left right : Filter)
  | or (left right : Filter)
  | not (filter : Filter)
deriving DecidableEq, Repr, Inhabited

/-- A filter as seen by the planner: one that pins a column to a value or to one of several, or any
    other. -/
inductive Shape where
  | equals (column : String) (value : Literal)
  | oneOf (column : String) (values : List Literal)
  | other
deriving DecidableEq, Repr, Inhabited

namespace Shape

/-- The column that the shape pins. -/
def column? : Shape → Option String
  | .equals column _ => some column
  | .oneOf column _ => some column
  | .other => none

/-- The literals that the shape allows in the column it pins. -/
def literals : Shape → List Literal
  | .equals _ value => [value]
  | .oneOf _ values => values
  | .other => []

end Shape

namespace Filter

/-- Only an equality with a constant that is not null, or a membership in a list without null, pins
    a column: nothing equals null, and a list that holds null is left to the engine. -/
def shape : Filter → Shape
  | .compare .equal column value => if value.isNull then .other else .equals column value
  | .isIn column values => if values.any Literal.isNull then .other else .oneOf column values
  | _ => .other

/-- The columns named at the leaves, from left to right. -/
def columns : Filter → List String
  | .compare _ column _ => [column]
  | .isIn column _ => [column]
  | .isNull column => [column]
  | .isNotNull column => [column]
  | .matchText _ column _ => [column]
  | .and left right => left.columns ++ right.columns
  | .or left right => left.columns ++ right.columns
  | .not filter => filter.columns

/-- The set of columns that the filter looks at. -/
def references (f : Filter) : TextSet :=
  .ofList f.columns

/-- Equality of lists of literals, place by place. -/
def sameLiterals : List Literal → List Literal → Bool
  | [], [] => true
  | a :: as, b :: bs => a.same b && sameLiterals as bs
  | _, _ => false

/-- Equality of filters, where floats are compared as numbers. -/
def same : Filter → Filter → Bool
  | .compare op column value, .compare op' column' value' =>
    op = op' && column = column' && value.same value'
  | .isIn column values, .isIn column' values' => column = column' && sameLiterals values values'
  | .isNull column, .isNull column' => column = column'
  | .isNotNull column, .isNotNull column' => column = column'
  | .matchText op column pattern, .matchText op' column' pattern' =>
    op = op' && column = column' && pattern = pattern'
  | .and left right, .and left' right' => left.same left' && right.same right'
  | .or left right, .or left' right' => left.same left' && right.same right'
  | .not filter, .not filter' => filter.same filter'
  | _, _ => false

/-- Equality of lists of filters, place by place. -/
def sameList : List Filter → List Filter → Bool
  | [], [] => true
  | f :: fs, g :: gs => f.same g && sameList fs gs
  | _, _ => false

end Filter

end TokenScan
