/-
Module: TokenScan.Proofs.TransportRoundTrip
Purpose: Transport loses nothing. A value that was serialized is read again exactly when its payload is
  neither too long nor nested too deeply, and then it is the same value but for the patterns of floats
  that are not numbers; of those one is left. What was read is sent with the same bytes again.
Main exports: deserialize_serialize, Lossless, Faithful.lossless, transport_lossless
-/
import TokenScan.Proofs.ShippedPlans
import TokenScan.Proofs.ShippedSchemas
import TokenScan.Transport.Payload

namespace TokenScan.Transport

open TokenScan.Cbor

section

variable {α : Type} [Shippable α]

theorem size_serialize (a : α) : (serialize a).size = (toItem a).write.length := rfl

/-- Payloads are equal when the items are written alike. -/
theorem serialize_congr {a b : α} (h : (toItem a).write = (toItem b).write) :
    serialize a = serialize b := by
  rw [serialize, serialize, encode, encode, h]

/-- What becomes of a value on the way: its payload is refused for its length or for its depth, or
    the value is received. -/
theorem deserialize_serialize [Faithful α] (a : α) :
    deserialize (serialize a) =
      if maxPayloadBytes < (serialize a).size then .error .tooLarge
      else if (toItem a).depth ≤ nestingLimit then .ok (received a)
      else .error .unreadable := by
  by_cases hlarge : maxPayloadBytes < (serialize a).size
  · rw [deserialize, if_pos hlarge, if_pos hlarge]
  · rw [deserialize, if_neg hlarge, if_neg hlarge]
    have hlength : (toItem a).write.length < 2 ^ 64 := by
      rw [← size_serialize]
      exact (Nat.le_of_not_lt hlarge).trans_lt (by decide)
    have hbytes : (serialize a).data.toList = (toItem a).write := rfl
    rw [hbytes, decode?, read?_write (withinWords a) hlength]
    by_cases hdepth : (toItem a).depth ≤ nestingLimit
    · rw [if_pos hdepth, if_pos hdepth, Option.bind_eq_bind, Option.bind_some, ofItem?_settled]
    · rw [if_neg hdepth, if_neg hdepth]
      rfl

end

/-- The values of a type survive transport. Of a value `a` that holds a float that is not a number,
    `quieted a` is what is received. -/
structure Lossless (α : Type) [Shippable α] (quieted : α → α) (HoldsNaN : α → Prop) : Prop where
  /-- Only payloads that are too long or nested too deeply are refused. -/
  accepted_iff : ∀ a : α, (∃ b : α, deserialize (serialize a) = .ok b) ↔
    (serialize a).size ≤ maxPayloadBytes ∧ (toItem a).depth ≤ nestingLimit
  /-- What is received is sent with the same bytes. -/
  same_bytes : ∀ a b : α, deserialize (serialize a) = .ok b → serialize b = serialize a
  /-- What is received is what was sent. -/
  same_value : ∀ a b : α, deserialize (serialize a) = .ok b → ¬ HoldsNaN a → b = a
  /-- The floats that are not numbers become the quiet one. -/
  quiet_value : ∀ a b : α, deserialize (serialize a) = .ok b → b = quieted a

/-- Transport is lossless for a type whose values come back from their items. -/
theorem Faithful.lossless {α : Type} [Shippable α] [Faithful α] {HoldsNaN : α → Prop}
    (hkept : ∀ a : α, ¬ HoldsNaN a → received a = a) : Lossless α received HoldsNaN := by
  have hreceived : ∀ a b : α, deserialize (serialize a) = .ok b → b = received a := by
    intro a b hb
    rw [deserialize_serialize] at hb
    split at hb
    · cases hb
    · split at hb
      · cases hb
        rfl
      · cases hb
  constructor
  case accepted_iff =>
    intro a
    rw [deserialize_serialize]
    by_cases hlarge : maxPayloadBytes < (serialize a).size
    · simp [hlarge]
    · by_cases hdepth : (toItem a).depth ≤ nestingLimit
      · simp [hlarge, hdepth, Nat.le_of_not_lt]
      · simp [hlarge, hdepth]
  case same_bytes =>
    intro a b hb
    apply serialize_congr
    rw [hreceived a b hb]
    exact write_received a
  case same_value =>
    intro a b hb hnan
    rw [hreceived a b hb]
    exact hkept a hnan
  case quiet_value => exact hreceived

/-- Every type that is sent survives transport. Only literals, and filters and scans that hold them,
    have floats in them. -/
theorem transport_lossless :
    Lossless Literal Literal.quieted Literal.IsNaN ∧
    Lossless Filter Filter.quieted Filter.HoldsNaN ∧
    Lossless ColumnType id (fun _ => False) ∧
    Lossless Column id (fun _ => False) ∧
    Lossless Table id (fun _ => False) ∧
    Lossless Token id (fun _ => False) ∧
    Lossless TokenRange id (fun _ => False) ∧
    Lossless Split id (fun _ => False) ∧
    Lossless KeyTarget id (fun _ => False) ∧
    Lossless Partitioner id (fun _ => False) ∧
    Lossless OutputPartitioning id (fun _ => False) ∧
    Lossless Settings id (fun _ => False) ∧
    Lossless Counters id (fun _ => False) ∧
    Lossless ScanPlan ScanPlan.quieted ScanPlan.HoldsNaN := by
  have hplain : ∀ {α : Type} (a : α), ¬ False → id a = a := fun _ _ => rfl
  refine ⟨?literal, ?filter, ?type, ?column, ?table, ?token, ?range, ?split, ?target, ?partitioner,
    ?partitioning, ?settings, ?counters, ?scan⟩
  case literal => exact Faithful.lossless fun _ => Literal.quieted_of_not_isNaN
  case filter => exact Faithful.lossless fun _ => Filter.quieted_of_not_holdsNaN
  case scan => exact Faithful.lossless fun _ => ScanPlan.quieted_of_not_holdsNaN
  case type | column | table | token | range | split | target | partitioner | partitioning
    | settings | counters => exact Faithful.lossless hplain

end TokenScan.Transport
