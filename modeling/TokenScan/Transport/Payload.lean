/-
Module: TokenScan.Transport.Payload
Purpose: Whole payloads: a value as bytes for the scan workers, and back. A payload beyond the
  greatest size is refused before it is looked at.
Main exports: maxPayloadBytes, TransportError, serialize, deserialize
-/
import TokenScan.Transport.Shape
import TokenScan.Cbor.Reader
import TokenScan.Report

namespace TokenScan.Transport

open TokenScan.Cbor

/-- The greatest number of bytes of a payload that is read. -/
def maxPayloadBytes : Nat := 64 * 1024 * 1024

/-- Why a payload is refused. -/
inductive TransportError where
  | tooLarge
  | unreadable
deriving DecidableEq, Repr

namespace TransportError

/-- What is said of the payload. -/
def message : TransportError → String
  | .tooLarge => "deserialize error: payload exceeds maximum allowed size"
  | .unreadable => "deserialize error: not a value of the expected type"

/-- A payload that cannot be read is a failure inside the engine. -/
def report (e : TransportError) : Report :=
  { errorClass := .internal, origin := .serialize, message := e.message }

end TransportError

/-- The bytes of a value. -/
def encode {α : Type} [Shippable α] (a : α) : Bytes :=
  (toItem a).write

/-- The value of some bytes. -/
def decode? {α : Type} [Shippable α] (bs : Bytes) : Option α :=
  read? bs >>= ofItem?

/-- The payload of a value. -/
def serialize {α : Type} [Shippable α] (a : α) : ByteArray :=
  ⟨(encode a).toArray⟩

/-- The value of a payload. -/
def deserialize {α : Type} [Shippable α] (payload : ByteArray) : Except TransportError α :=
  if maxPayloadBytes < payload.size then .error .tooLarge
  else match decode? payload.data.toList with
    | some a => .ok a
    | none => .error .unreadable

end TokenScan.Transport
