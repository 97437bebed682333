/-
Module: TokenScan.Proofs.DamagedPayloads
Purpose: No damaged payload is taken for a value. A payload that lost its end, be it all of it, and a
  payload with bytes after its end are refused: for their length when they are too long to be looked
  at, and else because they do not hold one item.
Main exports: refusal, DamageRefused, Faithful.damageRefused, damaged_payload_refused
-/
import TokenScan.Proofs.ReaderStability
import TokenScan.Proofs.TransportRoundTrip

namespace TokenScan.Transport

open TokenScan.Cbor

/-- Why a payload is refused that does not hold one item. -/
def refusal (payload : ByteArray) : TransportError :=
  if maxPayloadBytes < payload.size then .tooLarge else .unreadable

/-- The payloads of a type are refused at that type when they lost their end or were extended. The
    bytes of a payload are counted in 64 bits. -/
structure DamageRefused (α : Type) [Shippable α] : Prop where
  cut : ∀ (a : α) (front lost : ByteArray), (serialize a).size < 2 ^ 64 →
    serialize a = front ++ lost → lost.size ≠ 0 →
    deserialize (α := α) front = .error (refusal front)
  extended : ∀ (a : α) (extra : ByteArray), extra.size ≠ 0 →
    deserialize (α := α) (serialize a ++ extra) = .error (refusal (serialize a ++ extra))

section

variable {α : Type} [Shippable α]

theorem deserialize_eq_refusal {payload : ByteArray} (hread : read? payload.data.toList = none) :
    deserialize (α := α) payload = .error (refusal payload) := by
  rw [deserialize, refusal]
  split
  · rfl
  · rw [decode?, hread]
    rfl

theorem toList_ne_nil {payload : ByteArray} (hsize : payload.size ≠ 0) :
    payload.data.toList ≠ [] := by
  intro hnil
  apply hsize
  rw [← ByteArray.size_data, ← Array.length_toList, hnil]
  rfl

/-- Values that come back from their items are sent so that no damage goes unnoticed. -/
theorem Faithful.damageRefused [Faithful α] : DamageRefused α := by
  constructor
  case cut =>
    intro a front lost hsize hsplit hlost
    apply deserialize_eq_refusal
    have hbytes : (toItem a).write = front.data.toList ++ lost.data.toList := by
      have hdata := congrArg (fun payload : ByteArray => payload.data.toList) hsplit
      simpa [serialize, encode] using hdata
    rw [size_serialize] at hsize
    exact read?_of_cut (withinWords a) hsize hbytes (toList_ne_nil hlost)
  case extended =>
    intro a extra hextra
    by_cases hlarge : maxPayloadBytes < (serialize a ++ extra).size
    · rw [deserialize, refusal, if_pos hlarge, if_pos hlarge]
    · apply deserialize_eq_refusal
      have hsize : (toItem a).write.length < 2 ^ 64 := by
        rw [← size_serialize]
        rw [ByteArray.size_append] at hlarge
        have hmax : maxPayloadBytes < 2 ^ 64 := by decide
        omega
      have hbytes : (serialize a ++ extra).data.toList = (toItem a).write ++ extra.data.toList := by
        simp [serialize, encode]
      rw [hbytes]
      exact read?_of_extended (withinWords a) hsize (toList_ne_nil hextra)

end

/-- Neither a scan nor a filter is ever read from a payload of one that lost its end, nor from one
    that has bytes after its end. -/
theorem damaged_payload_refused : DamageRefused ScanPlan ∧ DamageRefused Filter :=
  ⟨Faithful.damageRefused, Faithful.damageRefused⟩

/-- A test for null that was cut in its last text, and one with a byte after it. -/
theorem damaged_payload_refused_of_null_test :
    ∃ front lost : ByteArray, serialize (Filter.isNull "id") = front ++ lost ∧ lost.size = 1 ∧
      deserialize (α := Filter) front = .error .unreadable ∧
      deserialize (α := Filter) (serialize (Filter.isNull "id") ++ lost) = .error .unreadable := by
  let front : ByteArray := ⟨#[0xa1, 0x66, 73, 115, 78, 117, 108, 108, 0xa1, 0x66, 99, 111, 108, 117,
    109, 110, 0x62, 105]⟩
  let lost : ByteArray := ⟨#[100]⟩
  have hsplit : serialize (Filter.isNull "id") = front ++ lost := by decide +kernel
  have hsize : (serialize (Filter.isNull "id")).size < 2 ^ 64 := by
    rw [hsplit]
    decide
  obtain ⟨-, hcut, hextended⟩ := damaged_payload_refused
  refine ⟨front, lost, hsplit, rfl, ?_, ?_⟩
  · exact hcut (Filter.isNull "id") front lost hsize hsplit (by decide)
  · rw [hextended (Filter.isNull "id") lost (by decide), hsplit]
    rfl

end TokenScan.Transport
