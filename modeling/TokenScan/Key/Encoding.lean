/-
Module: TokenScan.Key.Encoding
Purpose: The native byte form of a textual value, by the type of its column. Numbers, dates, times,
  identifiers, blobs and addresses are read without the blanks around them; texts and booleans are
  taken as they stand.
Main exports: integer?, varint?, dateLiteral?, timestampMillis?, uuid?, blob?, encodeText,
  encodeLiteral
-/
import TokenScan.Key.Error
import TokenScan.Schema.Column
import TokenScan.Number.TwosComplement
import TokenScan.Binary.Literal
import TokenScan.Calendar.Reading
import TokenScan.Net.Address

namespace TokenScan

open TokenScan.Number

namespace Key

/-- An integer of at most 128 bits; a longer one is no literal of a fixed-width type. -/
def boundedInt? (cs : List Char) : Option Int :=
  (Numeral.int? cs).filter (TwosComplement.fits 16)

/-- The integer written by a numeral, or by a numeral with a point and zeros after it. -/
def integer? (cs : List Char) : Option Int :=
  match boundedInt? cs with
  | some z => some z
  | none =>
    match cs.span (· ≠ '.') with
    | (whole, '.' :: fraction) =>
      if fraction ≠ [] ∧ fraction.all (· = '0') then boundedInt? whole else none
    | _ => none

/-- The digits of a long numeral: digits and underscores, a digit in front. -/
def longDigits? (cs : List Char) : Option Nat :=
  if cs.head?.any Char.isDigit then Numeral.nat? (cs.filter (· ≠ '_')) else none

/-- The integer of any size written by digits, which underscores may separate, after an optional
    sign. -/
def varint? : List Char → Option Int
  | '-' :: cs => (longDigits? cs).map fun n => -(n : Int)
  | '+' :: cs => (longDigits? cs).map Int.ofNat
  | cs => (longDigits? cs).map Int.ofNat

/-- What a date literal denotes: the stored number itself, or a number of days from 1970-01-01. -/
inductive DateLiteral where
  | raw (n : Int)
  | days (n : Int)
deriving DecidableEq, Repr

/-- A date literal: digits after an optional minus, or a calendar date. -/
def dateLiteral? (cs : List Char) : Option DateLiteral :=
  let digits := match cs with
    | '-' :: rest => rest
    | rest => rest
  if digits ≠ [] ∧ digits.all Char.isDigit then (Numeral.int? cs).map .raw
  else (Calendar.date? cs).map fun d => .days d.dayNumber

namespace DateLiteral

/-- The stored number of a date: day counts are shifted so that 1970-01-01 is in the middle. -/
def stored : DateLiteral → Int
  | .raw n => n
  | .days n => n + 0x80000000

end DateLiteral

/-- Milliseconds since 1970-01-01: an integer of 64 bits, or a written instant. -/
def timestampMillis? (cs : List Char) : Option Int :=
  match (Numeral.int? cs).filter (TwosComplement.fits 8) with
  | some z => some z
  | none => Calendar.instantMillis? cs

/-- The digits of an identifier in hyphenated groups. -/
def groupedDigits? (lengths : List Nat) (cs : List Char) : Option (List Char) :=
  match lengths with
  | [] => none
  | [n] => if cs.length = n then some cs else none
  | n :: rest =>
    match cs.drop n with
    | '-' :: tail =>
      if '-' ∈ cs.take n then none else (groupedDigits? rest tail).map (cs.take n ++ ·)
    | _ => none

/-- The sixteen bytes of an identifier: 32 hexadecimal digits, together or in groups of 8, 4, 4, 4
    and 12. -/
def uuid? (cs : List Char) : Option Bytes :=
  if cs.length = 32 then Text.Hex.decode? cs
  else if cs.length = 36 then groupedDigits? [8, 4, 4, 4, 12] cs >>= Text.Hex.decode?
  else none

/-- An identifier that carries a time: version 1, in the high half of its seventh byte. -/
def timeuuid? (cs : List Char) : Option Bytes :=
  (uuid? cs).filter fun bs => (bs.drop 6).head?.any fun b => b.toNat / 16 = 1

/-- The bytes of a blob: `0x` and pairs of hexadecimal digits. -/
def blob? : List Char → Option Bytes
  | '0' :: 'x' :: digits => Text.Hex.decode? digits
  | '0' :: 'X' :: digits => Text.Hex.decode? digits
  | _ => none

/-- A truth value in any ASCII case. -/
def boolean? (value : List Char) : Option Bool :=
  let word := value.map Char.toLower
  if word = "true".toList then some true
  else if word = "false".toList then some false
  else none

/-- A value of a type, or the fault that there is no such value. -/
def orMalformed {α : Type} (type : ColumnType) : Option α → Except EncodingFault α
  | some a => .ok a
  | none => .error (.malformed type)

theorem orMalformed_eq_ok_iff {α : Type} {type : ColumnType} {read : Option α} {a : α} :
    orMalformed type read = .ok a ↔ read = some a := by
  cases read with
  | none => exact ⟨nofun, nofun⟩
  | some b => rw [orMalformed, Except.ok.injEq, Option.some.injEq]

theorem eq_malformed_of_orMalformed {α : Type} {type : ColumnType} {read : Option α}
    {fault : EncodingFault} (h : orMalformed type read = .error fault) :
    fault = .malformed type := by
  cases read with
  | none => exact (Except.error.inj h).symm
  | some b => exact absurd h nofun

/-- An integer in its bytes, if it fits them. -/
def encodeInteger (type : ColumnType) (width : Nat) (cs : List Char) :
    Except EncodingFault Bytes := do
  let z ← orMalformed type (integer? cs)
  if TwosComplement.fits width z then return TwosComplement.fixed width z
  else throw (.outOfRange type)

/-- A date in its four bytes. -/
def encodeDate (type : ColumnType) (cs : List Char) : Except EncodingFault Bytes := do
  let n := (← orMalformed type (dateLiteral? cs)).stored
  if 0 ≤ n ∧ n < 0x100000000 then return bigEndian 4 n.toNat else throw (.outOfRange type)

/-- The bytes of a value of a type. -/
def encodeText (type : ColumnType) (value : String) : Except EncodingFault Bytes :=
  let trimmed := Text.trim value.toList
  match type with
  | .ascii =>
    if value.toList.all (·.toNat < 128) then .ok (Text.utf8 value) else .error (.malformed type)
  | .text | .varchar => .ok (Text.utf8 value)
  | .boolean => (orMalformed type (boolean? value.toList)).map fun b => [if b then 1 else 0]
  | .tinyint => encodeInteger type 1 trimmed
  | .smallint => encodeInteger type 2 trimmed
  | .int => encodeInteger type 4 trimmed
  | .bigint | .counter => encodeInteger type 8 trimmed
  | .varint => (orMalformed type (varint? trimmed)).map TwosComplement.minimal
  | .float => (orMalformed type (Binary.Literal.read? Binary.binary32 trimmed)).map (bigEndian 4)
  | .double => (orMalformed type (Binary.Literal.read? Binary.binary64 trimmed)).map (bigEndian 8)
  | .timestamp => (orMalformed type (timestampMillis? trimmed)).map (TwosComplement.fixed 8)
  | .date => encodeDate type trimmed
  | .uuid => orMalformed type (uuid? trimmed)
  | .timeuuid => orMalformed type (timeuuid? trimmed)
  | .blob => orMalformed type (blob? trimmed)
  | .inet => orMalformed type (Net.address? trimmed)
  | .other _ => .error (.unsupported type)

/-- The bytes of a value for a column. -/
def encodeLiteral (column : Column) (value : String) : Except EncodingError Bytes :=
  (encodeText column.type value).mapError (⟨column.name, value, ·⟩)

/-- A column stores what its type does. -/
theorem encodeLiteral_eq_ok_iff {column : Column} {value : String} {bytes : Bytes} :
    encodeLiteral column value = .ok bytes ↔ encodeText column.type value = .ok bytes := by
  rw [encodeLiteral]
  cases encodeText column.type value with
  | ok stored =>
    show (Except.ok stored : Except EncodingError Bytes) = .ok bytes ↔ _
    rw [Except.ok.injEq, Except.ok.injEq]
  | error fault => exact ⟨nofun, nofun⟩

/-- A column refuses what its type does, for the same fault. -/
theorem encodeLiteral_eq_error_iff {column : Column} {value : String} {fault : EncodingFault} :
    encodeLiteral column value = .error ⟨column.name, value, fault⟩ ↔
      encodeText column.type value = .error fault := by
  rw [encodeLiteral]
  cases encodeText column.type value with
  | ok stored => exact ⟨nofun, nofun⟩
  | error found =>
    show Except.error (EncodingError.mk column.name value found) = _ ↔ _
    simp

end Key

end TokenScan
