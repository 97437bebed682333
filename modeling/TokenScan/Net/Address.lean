/-
Module: TokenScan.Net.Address
Purpose: Textual internet addresses as the bytes that travel: four for a dotted quad, sixteen for
  the colon form. Octets have no leading zeros; a group has one to four hexadecimal digits; one `::`
  stands for a run of zero groups; the last two groups may be written as a dotted quad.
Main exports: address?
-/
import TokenScan.Text.Hex
import TokenScan.Number.TwosComplement

namespace TokenScan.Net

open TokenScan.Text

/-- A number of at most `most` digits in front, in a base up to sixteen, with what follows it. More
    digits than that, or none, is an error. -/
def leadingNumber? (base most : Nat) (cs : List Char) : Option (List Nat × List Char) :=
  let isDigit (c : Char) : Bool := (Hex.digit? c).any (· < base)
  let digits := cs.takeWhile isDigit
  if 0 < digits.length ∧ digits.length ≤ most then
    some (digits.filterMap Hex.digit?, cs.dropWhile isDigit)
  else none

/-- The number that digits spell in a base. -/
def ofDigits (base : Nat) (digits : List Nat) : Nat :=
  digits.foldl (fun n d => base * n + d) 0

/-- An octet in front: up to three decimal digits below 256, without a leading zero. -/
def leadingOctet? (cs : List Char) : Option (UInt8 × List Char) := do
  let (digits, rest) ← leadingNumber? 10 3 cs
  let n := ofDigits 10 digits
  let isShort := digits.length = 1 ∨ digits.head? ≠ some 0
  if n < 256 ∧ isShort then return (UInt8.ofNat n, rest) else none

/-- The text after a separator; before the first of several items there is none. -/
def afterSeparator? (separator : Char) (first : Bool) (cs : List Char) : Option (List Char) :=
  if first then some cs
  else match cs with
    | c :: rest => if c = separator then some rest else none
    | [] => none

/-- A dotted quad in front, with what follows it. -/
def leadingQuad? (cs : List Char) : Option (Bytes × List Char) := do
  let (a, cs) ← leadingOctet? cs
  let (b, cs) ← leadingOctet? (← afterSeparator? '.' false cs)
  let (c, cs) ← leadingOctet? (← afterSeparator? '.' false cs)
  let (d, cs) ← leadingOctet? (← afterSeparator? '.' false cs)
  return ([a, b, c, d], cs)

/-- A group in front: one to four hexadecimal digits, as two bytes. -/
def leadingGroup? (cs : List Char) : Option (Bytes × List Char) := do
  let (digits, rest) ← leadingNumber? 16 4 cs
  return (Number.bigEndian 2 (ofDigits 16 digits), rest)

/-- What a run of groups read: its bytes, whether a dotted quad ended it, and the text after it. -/
structure Groups where
  bytes : Bytes
  endsInQuad : Bool
  rest : List Char

/-- Groups separated by colons, as many as there are and at most `room`. A dotted quad takes the
    room of two groups and ends the run. -/
def leadingGroups (first : Bool) : Nat → List Char → Groups
  | 0, cs => ⟨[], false, cs⟩
  | room + 1, cs =>
    match (if room = 0 then none else afterSeparator? ':' first cs >>= leadingQuad?) with
    | some (quad, rest) => ⟨quad, true, rest⟩
    | none =>
      match afterSeparator? ':' first cs >>= leadingGroup? with
      | some (group, rest) =>
        let more := leadingGroups false room rest
        ⟨group ++ more.bytes, more.endsInQuad, more.rest⟩
      | none => ⟨[], false, cs⟩

/-- Eight groups, or groups before and after a `::` that stands for at least one group of zeros. No
    dotted quad comes before it. -/
def colonForm? (cs : List Char) : Option Bytes :=
  let front := leadingGroups true 8 cs
  if front.bytes.length = 16 then
    if front.rest = [] then some front.bytes else none
  else
    match front.endsInQuad, front.rest with
    | false, ':' :: ':' :: cs =>
      let back := leadingGroups true (7 - front.bytes.length / 2) cs
      let missing := 16 - front.bytes.length - back.bytes.length
      if back.rest = [] then some (front.bytes ++ List.replicate missing 0 ++ back.bytes) else none
    | _, _ => none

/-- The bytes of an address in either form. -/
def address? (cs : List Char) : Option Bytes :=
  match leadingQuad? cs with
  | some (quad, rest) => if rest = [] then some quad else none
  | none => colonForm? cs

end TokenScan.Net
