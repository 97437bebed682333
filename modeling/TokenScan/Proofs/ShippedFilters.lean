/-
Module: TokenScan.Proofs.ShippedFilters
Purpose: Literals and filters come back from their items, with the floats in them quieted. A filter
  is read down to a depth, and the item of a filter is always deep enough.
Main exports: Literal.quieted, Filter.quieted, filterWithin?_settled and the Faithful instances of
  Literal and Filter
-/
import TokenScan.Proofs.ShippedShapes
import TokenScan.Proofs.FilterEquality
import TokenScan.Proofs.SignedBytes
import TokenScan.Transport.Filter

namespace TokenScan

/-! ### What comes back -/

namespace Literal

/-- The literal with the one quiet not-a-number in place of any other. -/
def quieted : Literal → Literal
  | .float bits => .float (Cbor.quieted bits)
  | literal => literal

theorem quieted_of_not_isNaN {literal : Literal} (h : ¬ literal.IsNaN) :
    literal.quieted = literal := by
  cases literal with
  | float bits => rw [quieted, Cbor.quieted_of_number (Bool.eq_false_of_not_eq_true h)]
  | _ => rfl

end Literal

namespace Filter

/-- The filter with all its literals quieted. -/
def quieted : Filter → Filter
  | .compare op column value => .compare op column value.quieted
  | .isIn column values => .isIn column (values.map Literal.quieted)
  | .isNull column => .isNull column
  | .isNotNull column => .isNotNull column
  | .matchText op column pattern => .matchText op column pattern
  | .and left right => .and left.quieted right.quieted
  | .or left right => .or left.quieted right.quieted
  | .not filter => .not filter.quieted

theorem quieted_of_not_holdsNaN {filter : Filter} (h : ¬ filter.HoldsNaN) :
    filter.quieted = filter := by
  induction filter with
  | compare op column value => rw [quieted, Literal.quieted_of_not_isNaN h]
  | isIn column values =>
      have hvalues : ∀ value ∈ values, value.quieted = value := by
        intro value hvalue
        apply Literal.quieted_of_not_isNaN
        exact fun hnan => h ⟨value, hvalue, hnan⟩
      rw [quieted, List.map_congr_left hvalues, List.map_id']
  | isNull column | isNotNull column | matchText op column pattern => rfl
  | and left right ihl ihr | or left right ihl ihr =>
      rw [HoldsNaN, not_or] at h
      rw [quieted, ihl h.1, ihr h.2]
  | not filter ih => rw [quieted, ih h]

end Filter

namespace Transport

open TokenScan.Cbor
open TokenScan.Cbor.Item

/-! ### Literals -/

theorem withinWords_literal (literal : Literal) : (toItem literal).WithinWords := by
  cases literal with
  | null => exact trivial
  | bool b | float bits | text s | bytes bs =>
      apply withinWords_variantOf
      exact trivial
  | int n =>
      apply withinWords_variantOf
      exact withinWords_int (by decide) (Number.TwosComplement.fits_toInt n)

theorem ofItem?_settled_literal (literal : Literal) :
    ofItem? (toItem literal).settled = some literal.quieted := by
  cases literal with
  | null => exact bind_variant?_text rfl rfl
  | bool b | float bits | text s | bytes bs => exact bind_variant?_settled rfl rfl
  | int n =>
      apply bind_variant?_settled rfl
      simp only [Payload.one?, settled_int, int?_int (Number.TwosComplement.fits_toInt n),
        Option.bind_eq_bind, Option.bind_some, Int64.ofInt_toInt]
      rfl

/-- A literal that came back is written as it was. -/
theorem write_quieted_literal (literal : Literal) :
    (toItem literal.quieted).write = (toItem literal).write := by
  cases literal with
  | float bits =>
      apply write_variantOf_congr
      exact writeFloat_quieted bits
  | null | bool b | int n | text s | bytes bs => rfl

instance : Faithful Literal where
  received := Literal.quieted
  withinWords := withinWords_literal
  ofItem?_settled := ofItem?_settled_literal
  write_received := write_quieted_literal

/-! ### Filters -/

/-- A comparison comes back with its constant quieted. -/
theorem compare?_settled (op : Comparison) (column : String) (value : Literal) :
    compare? op (.single (record [("column", toItem column), ("value", toItem value)]).settled) =
      some (.compare op column value.quieted) := by
  simp only [compare?, Payload.one?, Option.bind_eq_bind, Option.bind_some]
  apply bind_fields?_settled
  · rfl
  · decide
  · simp only [List.map_cons, List.map_nil, ofItem?_settled, Option.bind_some]
    rfl

/-- A match of a text comes back as it was. -/
theorem matchText?_settled (op : TextMatch) (column pattern : String) :
    matchText? op
        (.single (record [("column", toItem column), ("value", toItem pattern)]).settled) =
      some (.matchText op column pattern) := by
  simp only [matchText?, Payload.one?, Option.bind_eq_bind, Option.bind_some]
  apply bind_fields?_settled
  · rfl
  · decide
  · simp only [List.map_cons, List.map_nil, ofItem?_settled, Option.bind_some]
    rfl

theorem columnOnly?_settled (column : String) :
    columnOnly? (.single (record [("column", toItem column)]).settled) = some column := by
  simp only [columnOnly?, Payload.one?, Option.bind_eq_bind, Option.bind_some]
  apply bind_fields?_settled
  · rfl
  · decide
  · exact ofItem?_settled column

theorem withinWords_filter (filter : Filter) : (filterItem filter).WithinWords := by
  induction filter with
  | compare op column value | isIn column values | isNull column | isNotNull column
  | matchText op column pattern =>
      apply withinWords_variantOf
      apply withinWords_record
      simp
  | and left right ihl ihr | or left right ihl ihr =>
      apply withinWords_variantOf
      exact ⟨ihl, ihr, trivial⟩
  | not filter ih => exact withinWords_variantOf ih _

/-- A filter comes back from any depth that exceeds that of its item. -/
theorem filterWithin?_settled (filter : Filter) {n : Nat}
    (hn : (filterItem filter).settled.depth < n) :
    filterWithin? n (filterItem filter).settled = some filter.quieted := by
  -- One level of the filter takes one level of the item at least, so the hypothesis carries over.
  induction n generalizing filter with
  | zero => omega
  | succ n ih =>
      cases filter with
      | compare op column value =>
          cases op with
          | equal | nullSafeEqual | greater | greaterOrEqual | less | lessOrEqual =>
              exact bind_variant?_settled rfl (compare?_settled _ column value)
      | isIn column values =>
          apply bind_variant?_settled rfl
          simp only [Payload.one?, Option.bind_eq_bind, Option.bind_some]
          apply bind_fields?_settled
          · rfl
          · decide
          · simp only [List.map_cons, List.map_nil, ofItem?_settled, Option.bind_some]
            rfl
      | isNull column | isNotNull column =>
          apply bind_variant?_settled rfl
          simp only [columnOnly?_settled, Option.map_some]
          rfl
      | matchText op column pattern =>
          cases op with
          | startsWith | endsWith | contains =>
              exact bind_variant?_settled rfl (matchText?_settled _ column pattern)
      | and left right | or left right =>
          rw [filterItem, settled_variantOf, depth_variantOf] at hn
          simp only [settled, settledAll, depth, depthAll] at hn
          apply bind_variant?_settled rfl
          simp only [Payload.two?, settled, settledAll, untagged, Option.bind_eq_bind,
            Option.bind_some, ih left (by omega), ih right (by omega)]
          rfl
      | not filter =>
          rw [filterItem, settled_variantOf, depth_variantOf] at hn
          apply bind_variant?_settled rfl
          simp only [Payload.one?, Option.bind_eq_bind, Option.bind_some, ih filter (by omega)]
          rfl

/-- A filter that came back is written as it was. -/
theorem write_quieted_filter (filter : Filter) :
    (filterItem filter.quieted).write = (filterItem filter).write := by
  induction filter with
  | compare op column value =>
      apply write_variantOf_congr
      apply write_record_congr
      exact .cons ⟨rfl, rfl⟩ (.cons ⟨rfl, write_received value⟩ .nil)
  | isIn column values =>
      apply write_variantOf_congr
      apply write_record_congr
      exact .cons ⟨rfl, rfl⟩ (.cons ⟨rfl, write_received values⟩ .nil)
  | isNull column | isNotNull column | matchText op column pattern => rfl
  | and left right ihl ihr | or left right ihl ihr =>
      apply write_variantOf_congr
      simp only [write, writeAll, ihl, ihr, List.length_cons]
  | not filter ih => exact write_variantOf_congr ih _

instance : Faithful Filter where
  received := Filter.quieted
  withinWords := withinWords_filter
  ofItem?_settled filter := filterWithin?_settled filter (Nat.lt_succ_self _)
  write_received := write_quieted_filter

end Transport

end TokenScan
