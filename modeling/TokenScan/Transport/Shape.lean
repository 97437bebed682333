/-
Module: TokenScan.Transport.Shape
Purpose: The shapes that values take as data items. A record is a map from field names or an array
  in field order; a variant is a bare name, a one-entry map from the name to its payload, or an
  array that starts with the name. Names may be texts, bytes or indices.
Main exports: Shippable, fieldSlots, Payload, variant?, record, variantOf
-/
import TokenScan.Cbor.Item

namespace TokenScan.Transport

open TokenScan.Cbor

/-- A type whose values travel as data items. -/
class Shippable (α : Type) where
  /-- The item of a value. -/
  toItem : α → Item
  /-- The value of an item, if it is one. -/
  ofItem? : Item → Option α

export Shippable (toItem ofItem?)

/-- The place of a name among some names: nothing when the item cannot be a name, and `some none`
    when it is a name but none of these. -/
def nameIndex (names : List String) (item : Item) : Option (Option Nat) :=
  match item.untagged with
  | .unsigned n => some (if n < names.length then some n else none)
  | .text s => some (names.findIdx? (· = s))
  | .bytes bs => some (names.findIdx? (Text.utf8 · = bs))
  | _ => none

/-- Puts an entry of a record into the slot of its field. A field may come once; an entry that is no
    field is refused or passed over. -/
def fillSlot (names : List String) (strict : Bool) (slots : List (Option Item))
    (entry : Item × Item) : Option (List (Option Item)) :=
  match nameIndex names entry.1 with
  | none => none
  | some none => if strict then none else some slots
  | some (some i) =>
    match slots[i]? with
    | some none => some (slots.set i (some entry.2))
    | _ => none

/-- The items of the fields of a record, in field order; a field that is missing has none. -/
def fieldSlots (names : List String) (strict : Bool) (item : Item) : Option (List (Option Item)) :=
  match item.untagged with
  | .array items =>
    if items.length ≤ names.length then
      some (items.map some ++ List.replicate (names.length - items.length) none)
    else none
  | .map _ entries => entries.foldlM (fillSlot names strict) (List.replicate names.length none)
  | _ => none

/-- The items of the fields of a record that must all be there. -/
def fields? (names : List String) (item : Item) : Option (List Item) :=
  fieldSlots names false item >>= fun slots => slots.mapM id

/-- What comes with the name of a variant: nothing, an item, or the rest of an array. -/
inductive Payload where
  | absent
  | single (item : Item)
  | spread (items : List Item)
deriving Repr, Inhabited

namespace Payload

/-- The payload of a variant that has none: absent, or a unit in its place. -/
def isUnit : Payload → Bool
  | .absent => true
  | .single item => match item.untagged with
    | .unit => true
    | _ => false
  | .spread [item] => match item.untagged with
    | .unit => true
    | _ => false
  | .spread _ => false

/-- The payload of a variant with one value. -/
def one? : Payload → Option Item
  | .single item => some item
  | .spread [item] => some item
  | _ => none

/-- The payload of a variant with two values. -/
def two? : Payload → Option (Item × Item)
  | .single item => match item.untagged with
    | .array [a, b] => some (a, b)
    | _ => none
  | .spread [a, b] => some (a, b)
  | _ => none

end Payload

/-- The variant that an item names, by its place among some names, and its payload. A map names a
    variant only when its first byte says that it has one entry. -/
def variant? (names : List String) (item : Item) : Option (Nat × Payload) :=
  let (name, payload) := match item with
    | .map .immediate [(name, payload)] => (name, Payload.single payload)
    | .array (name :: items) => (name, Payload.spread items)
    | item => (item, Payload.absent)
  match nameIndex names name with
  | some (some i) => some (i, payload)
  | _ => none

/-- The value that an item names among some values without payload. -/
def plainVariant? {α : Type} (names : List String) (values : List α) (item : Item) : Option α := do
  let (i, payload) ← variant? names item
  if payload.isUnit then values[i]? else none

/-- A record as it is sent: a map from the names of its fields. -/
def record (fields : List (String × Item)) : Item :=
  Item.mapOf (fields.map fun (name, item) => (.text name, item))

/-- A variant with a payload as it is sent: a map from its name to the payload. -/
def variantOf (name : String) (payload : Item) : Item :=
  Item.mapOf [(.text name, payload)]

/-- A text, or the bytes of one. -/
def text? (item : Item) : Option String :=
  match item.untagged with
  | .text s => some s
  | .bytes bs => Text.ofUtf8? bs
  | _ => none

/-- A natural number below a bound. -/
def natBelow? (bound : Nat) (item : Item) : Option Nat :=
  match item.untagged with
  | .unsigned n => if n < bound then some n else none
  | _ => none

/-- An integer in the signed range of `width` bytes. -/
def int? (width : Nat) (item : Item) : Option Int :=
  let z? : Option Int := match item.untagged with
    | .unsigned n => some n
    | .negative n => some (-1 - n)
    | _ => none
  z?.filter (Number.TwosComplement.fits width)

/-- A float, or an integer of 64 bits as the nearest float. -/
def float? (item : Item) : Option UInt64 :=
  match item.untagged with
  | .float bits => some bits
  | .unsigned n => some (Binary.Binary64.ofInt n)
  | .negative n => if n < 0x8000000000000000 then some (Binary.Binary64.ofInt (-1 - n)) else none
  | _ => none

/-- A byte string, the bytes of a text, or an array of bytes. -/
def bytes? (item : Item) : Option Bytes :=
  match item.untagged with
  | .bytes bs => some bs
  | .text s => some (Text.utf8 s)
  | .array items => items.mapM fun i => (natBelow? 256 i).map UInt8.ofNat
  | _ => none

instance : Shippable String where
  toItem := .text
  ofItem? := text?

instance : Shippable UInt64 where
  toItem n := .unsigned n.toNat
  ofItem? item := (natBelow? UInt64.size item).map UInt64.ofNat

instance {α : Type} [Shippable α] : Shippable (List α) where
  toItem as := .array (as.map toItem)
  ofItem? item := match item.untagged with
    | .array items => items.mapM ofItem?
    | _ => none

end TokenScan.Transport
