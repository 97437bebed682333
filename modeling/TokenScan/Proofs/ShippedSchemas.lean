/-
Module: TokenScan.Proofs.ShippedSchemas
Purpose: Column types, columns, tables and settings come back from their items as they were.
Main exports: the Faithful instances of ColumnType, ColumnKind, Column, Table, ExcessPolicy and
  Settings
-/
import TokenScan.Proofs.ShippedShapes
import TokenScan.Transport.Schema

namespace TokenScan.Transport

open TokenScan.Cbor
open TokenScan.Cbor.Item

instance : Faithful ColumnType where
  received := id
  withinWords type := by
    cases type with
    | other name =>
        apply withinWords_variantOf
        exact trivial
    | _ => exact trivial
  ofItem?_settled type := by
    cases type with
    | other name => exact bind_variant?_settled rfl rfl
    | _ => exact bind_variant?_text rfl rfl
  write_received _ := rfl

instance : Faithful ColumnKind where
  received := id
  withinWords _ := trivial
  ofItem?_settled kind := by
    cases kind with
    | partitionKey | clusteringKey | static | value =>
        apply plainVariant?_text
        · rfl
        · rfl
  write_received _ := rfl

instance : Faithful Column where
  received := id
  withinWords c := by
    apply withinWords_record
    simp
  ofItem?_settled c := by
    apply bind_fields?_settled
    · rfl
    · decide
    · simp only [List.map_cons, List.map_nil, ofItem?_settled, Option.bind_eq_bind,
        Option.bind_some]
      rfl
  write_received _ := rfl

instance : Faithful Table where
  received := id
  withinWords t := by
    apply withinWords_record
    simp
  ofItem?_settled t := by
    apply bind_fields?_settled
    · rfl
    · decide
    · simp only [List.map_cons, List.map_nil, ofItem?_settled, Option.bind_eq_bind,
        Option.bind_some]
      simp only [received, List.map_id_fun, id]
      rfl
  write_received _ := rfl

instance : Faithful ExcessPolicy where
  received := id
  withinWords _ := trivial
  ofItem?_settled policy := by
    cases policy with
    | reject | fullScan =>
        apply plainVariant?_text
        · rfl
        · rfl
  write_received _ := rfl

instance : Faithful Settings where
  received := id
  withinWords s := by
    apply withinWords_record
    simp
  ofItem?_settled s := by
    apply bind_fieldSlots_settled
    · rfl
    · decide
    · simp only [List.map_cons, List.map_nil, orDefault, ofItem?_settled, Option.bind_eq_bind,
        Option.bind_some]
      rfl
  write_received _ := rfl

end TokenScan.Transport
