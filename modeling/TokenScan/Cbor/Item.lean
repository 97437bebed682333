/-
Module: TokenScan.Cbor.Item
Purpose: Data items of the Concise Binary Object Representation, as far as plans use them, with the
  bytes that write them. Lengths and integers take the shortest form; a float takes the shortest of
  the half, single and double forms that keeps its value.
Main exports: Cbor.Item, Item.depth, Item.untagged, Item.write
-/
import TokenScan.Binary.Format
import TokenScan.Number.TwosComplement

namespace TokenScan.Cbor

open TokenScan.Number
open TokenScan.Binary

/-- How the number of entries of a map is given: in the first byte, in bytes after it, or not at
    all, when a break ends the map. -/
inductive LengthForm where
  | immediate
  | extended
  | indefinite
deriving DecidableEq, Repr, Inhabited

/-- A data item. -/
inductive Item where
  /-- A natural number. -/
  | unsigned (n : Nat)
  /-- The integer `-1 - n`. -/
  | negative (n : Nat)
  | bytes (bs : Bytes)
  | text (s : String)
  | array (items : List Item)
  | map (form : LengthForm) (entries : List (Item × Item))
  | tagged (tag : Nat) (item : Item)
  | bool (b : Bool)
  /-- Null or undefined. -/
  | unit
  /-- A float of any width, as the 64-bit pattern of its value. -/
  | float (bits : UInt64)
deriving Repr, Inhabited

namespace Item

mutual

/-- The greatest number of arrays, maps and tags around an item in it, itself included. -/
def depth : Item → Nat
  | array items => depthAll items + 1
  | map _ entries => depthEntries entries + 1
  | tagged _ item => item.depth + 1
  | _ => 0

/-- The greatest depth of some items. -/
def depthAll : List Item → Nat
  | [] => 0
  | item :: items => max item.depth (depthAll items)

/-- The greatest depth of the keys and values of some entries. -/
def depthEntries : List (Item × Item) → Nat
  | [] => 0
  | (key, value) :: entries => max (max key.depth value.depth) (depthEntries entries)

end

/-- The item under its tags, which say nothing about plans. -/
def untagged : Item → Item
  | tagged _ item => item.untagged
  | item => item

/-- A map whose length is given in the shortest form. -/
def mapOf (entries : List (Item × Item)) : Item :=
  map (if entries.length < 24 then .immediate else .extended) entries

/-- The integer `z`. -/
def int (z : Int) : Item :=
  if 0 ≤ z then unsigned z.toNat else negative (-1 - z).toNat

end Item

/-- The first byte of an item and the bytes of its argument: the kind in three bits, and the
    argument in the other five or in one, two, four or eight bytes after them. -/
def head (kind n : Nat) : Bytes :=
  if n < 24 then [UInt8.ofNat (32 * kind + n)]
  else if n < 0x100 then UInt8.ofNat (32 * kind + 24) :: bigEndian 1 n
  else if n < 0x10000 then UInt8.ofNat (32 * kind + 25) :: bigEndian 2 n
  else if n < 0x100000000 then UInt8.ofNat (32 * kind + 26) :: bigEndian 4 n
  else UInt8.ofNat (32 * kind + 27) :: bigEndian 8 n

/-- The pattern of the same number in a narrower format, if that format has it. -/
def narrowed? (target : Format) (bits : UInt64) : Option Nat :=
  let narrow := binary64.convert target bits.toNat
  if target.convert binary64 narrow = bits.toNat then some narrow else none

/-- The bytes of a float. Every not-a-number is written as the same quiet one. -/
def writeFloat (bits : UInt64) : Bytes :=
  if binary64.isNaN bits.toNat then 0xf9 :: bigEndian 2 binary16.quietNaN
  else match narrowed? binary16 bits, narrowed? binary32 bits with
    | some half, _ => 0xf9 :: bigEndian 2 half
    | none, some single => 0xfa :: bigEndian 4 single
    | none, none => 0xfb :: bigEndian 8 bits.toNat

namespace Item

mutual

/-- The bytes of an item. -/
def write : Item → Bytes
  | unsigned n => head 0 n
  | negative n => head 1 n
  | bytes bs => head 2 bs.length ++ bs
  | text s => head 3 (Text.utf8 s).length ++ Text.utf8 s
  | array items => head 4 items.length ++ writeAll items
  | map _ entries => head 5 entries.length ++ writeEntries entries
  | tagged tag item => head 6 tag ++ item.write
  | bool b => [if b then 0xf5 else 0xf4]
  | unit => [0xf6]
  | float bits => writeFloat bits

/-- The bytes of some items, one after the other. -/
def writeAll : List Item → Bytes
  | [] => []
  | item :: items => item.write ++ writeAll items

/-- The bytes of some entries, each key before its value. -/
def writeEntries : List (Item × Item) → Bytes
  | [] => []
  | (key, value) :: entries => key.write ++ (value.write ++ writeEntries entries)

end

end Item

end TokenScan.Cbor
