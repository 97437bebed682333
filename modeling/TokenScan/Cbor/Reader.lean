/-
Module: TokenScan.Cbor.Reader
Purpose: Reading data items from bytes. All forms are read, also indefinite lengths, arguments
  longer than they need be, floats of every width and tags; simple values other than the truth
  values, null and undefined are refused, and so is nesting beyond a limit.
Main exports: Cbor.nestingLimit, Cbor.readItem, Cbor.read?
-/
import TokenScan.Cbor.Item

namespace TokenScan.Cbor

open TokenScan.Number
open TokenScan.Binary

/-- A reader takes something off the front of the bytes, or refuses them. -/
abbrev Reader (α : Type) := Bytes → Option (α × Bytes)

/-- Exactly `n` bytes off the front. -/
def takeBytes (n : Nat) : Reader Bytes := fun bs =>
  let front := bs.take n
  if front.length = n then some (front, bs.drop n) else none

/-- The number in the next `width` bytes. -/
def readNumber (width : Nat) : Reader Nat := fun bs =>
  (takeBytes width bs).map fun (front, rest) => (ofBigEndian front, rest)

/-- The argument that the low five bits of a first byte announce; forms without an argument are
    refused. -/
def readArgument (low : Nat) : Reader Nat := fun bs =>
  if low < 24 then some (low, bs)
  else if low = 24 then readNumber 1 bs
  else if low = 25 then readNumber 2 bs
  else if low = 26 then readNumber 4 bs
  else if low = 27 then readNumber 8 bs
  else none

/-- The given number of things, one after the other. -/
def readMany {α : Type} (reader : Reader α) : Nat → Reader (List α)
  | 0, bs => some ([], bs)
  | count + 1, bs => do
    let (a, bs) ← reader bs
    let (as, bs) ← readMany reader count bs
    return (a :: as, bs)

/-- Things up to a break, which is taken off too. The first argument bounds their number. -/
def readUntilBreak {α : Type} (reader : Reader α) : Nat → Reader (List α)
  | _, 0xff :: bs => some ([], bs)
  | 0, _ => none
  | fuel + 1, bs => do
    let (a, bs) ← reader bs
    let (as, bs) ← readUntilBreak reader fuel bs
    return (a :: as, bs)

/-- One thing after another. -/
def readPair {α : Type} (reader : Reader α) : Reader (α × α) := fun bs => do
  let (a, bs) ← reader bs
  let (b, bs) ← reader bs
  return ((a, b), bs)

/-- A piece of a byte string or text of indefinite length: of the same kind, and of definite length.
    -/
def readPiece (kind : Nat) : Reader Bytes
  | [] => none
  | b :: bs =>
    if b.toNat / 32 = kind then readArgument (b.toNat % 32) bs >>= fun (n, bs) => takeBytes n bs
    else none

/-- The bytes of a byte string or text: of a definite length, or in pieces up to a break. -/
def readString (kind low : Nat) : Reader Bytes := fun bs =>
  if low = 31 then
    (readUntilBreak (readPiece kind) bs.length bs).map fun (pieces, rest) => (pieces.flatten, rest)
  else readArgument low bs >>= fun (n, bs) => takeBytes n bs

/-- An item of one of the kinds that hold no other item. -/
def readLeaf (kind low : Nat) : Reader Item := fun bs =>
  match kind with
  | 0 => (readArgument low bs).map fun (n, rest) => (.unsigned n, rest)
  | 1 => (readArgument low bs).map fun (n, rest) => (.negative n, rest)
  | 2 => (readString kind low bs).map fun (s, rest) => (.bytes s, rest)
  | 3 => do
    let (s, rest) ← readString kind low bs
    return (.text (← Text.ofUtf8? s), rest)
  | 7 =>
    match low with
    | 20 => some (.bool false, bs)
    | 21 => some (.bool true, bs)
    | 22 => some (.unit, bs)
    | 23 => some (.unit, bs)
    | 25 => (readNumber 2 bs).map fun (n, rest) => (widened binary16 n, rest)
    | 26 => (readNumber 4 bs).map fun (n, rest) => (widened binary32 n, rest)
    | 27 => (readNumber 8 bs).map fun (n, rest) => (.float (UInt64.ofNat n), rest)
    | _ => none
  | _ => none
where
  /-- A narrower float as the double of the same value. -/
  widened (source : Format) (n : Nat) : Item := .float (UInt64.ofNat (source.convert binary64 n))

/-- The entries of a map and the form of its length. -/
def readEntries (reader : Reader Item) (low : Nat) : Reader Item := fun bs =>
  if low = 31 then
    (readUntilBreak (readPair reader) bs.length bs).map fun (es, rest) =>
      (.map .indefinite es, rest)
  else do
    let (n, bs) ← readArgument low bs
    let (es, rest) ← readMany (readPair reader) n bs
    return (.map (if low < 24 then .immediate else .extended) es, rest)

/-- The items of an array. -/
def readElements (reader : Reader Item) (low : Nat) : Reader Item := fun bs =>
  if low = 31 then
    (readUntilBreak reader bs.length bs).map fun (items, rest) => (.array items, rest)
  else do
    let (n, bs) ← readArgument low bs
    let (items, rest) ← readMany reader n bs
    return (.array items, rest)

/-- A tag and the item under it. -/
def readTagged (reader : Reader Item) (low : Nat) : Reader Item := fun bs => do
  let (tag, bs) ← readArgument low bs
  let (item, rest) ← reader bs
  return (.tagged tag item, rest)

/-- The greatest number of arrays, maps and tags around an item that is read. -/
def nestingLimit : Nat := 127

/-- An item off the front, with no more than the given nesting. -/
def readItem : Nat → Reader Item
  | _, [] => none
  | 0, b :: bs =>
    if b.toNat / 32 = 4 ∨ b.toNat / 32 = 5 ∨ b.toNat / 32 = 6 then none
    else readLeaf (b.toNat / 32) (b.toNat % 32) bs
  | nesting + 1, b :: bs =>
    match b.toNat / 32 with
    | 4 => readElements (readItem nesting) (b.toNat % 32) bs
    | 5 => readEntries (readItem nesting) (b.toNat % 32) bs
    | 6 => readTagged (readItem nesting) (b.toNat % 32) bs
    | kind => readLeaf kind (b.toNat % 32) bs

/-- The one item that the bytes hold. -/
def read? (bs : Bytes) : Option Item :=
  match readItem nestingLimit bs with
  | some (item, []) => some item
  | _ => none

end TokenScan.Cbor
