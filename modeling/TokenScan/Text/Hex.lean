/-
Module: TokenScan.Text.Hex
Purpose: Bytes spelt as pairs of hexadecimal digits: written in lower case, read in either case.
Main exports: Hex.digit, Hex.digit?, Hex.encode, Hex.decode?
-/
import TokenScan.Text.Utf8

namespace TokenScan.Text.Hex

/-- The lower-case hexadecimal digit of a number below sixteen. -/
def digit (n : Nat) : Char :=
  if n < 10 then Char.ofNat (48 + n) else Char.ofNat (87 + n)

/-- The number that a hexadecimal digit of either case stands for. -/
def digit? (c : Char) : Option Nat :=
  if '0' ≤ c ∧ c ≤ '9' then some (c.toNat - 48)
  else if 'a' ≤ c ∧ c ≤ 'f' then some (c.toNat - 87)
  else if 'A' ≤ c ∧ c ≤ 'F' then some (c.toNat - 55)
  else none

/-- Two digits to the byte, the high one first. -/
def encode (bs : Bytes) : List Char :=
  bs.flatMap fun b => [digit (b.toNat / 16), digit (b.toNat % 16)]

/-- The bytes spelt by an even number of hexadecimal digits. -/
def decode? : List Char → Option Bytes
  | [] => some []
  | [_] => none
  | high :: low :: rest =>
    match digit? high, digit? low with
    | some h, some l => (decode? rest).map (UInt8.ofNat (16 * h + l) :: ·)
    | _, _ => none

theorem digit?_digit : ∀ n < 16, digit? (digit n) = some n := by
  decide

/-- Bytes are read back from their digits. -/
@[simp] theorem decode?_encode (bs : Bytes) : decode? (encode bs) = some bs := by
  induction bs with
  | nil => rfl
  | cons b bs ih =>
    have hb : b.toNat < 256 := b.toNat_lt
    have hbyte : UInt8.ofNat (16 * (b.toNat / 16) + b.toNat % 16) = b := by
      rw [Nat.div_add_mod, UInt8.ofNat_toNat]
    simp only [encode, List.flatMap_cons, List.cons_append, List.nil_append] at ih ⊢
    rw [decode?, digit?_digit _ (by omega), digit?_digit _ (by omega), ih]
    exact congrArg (fun byte => some (byte :: bs)) hbyte

end TokenScan.Text.Hex
