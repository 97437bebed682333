/-
Module: TokenScan.Number.Numeral
Purpose: Integers in decimal: the digits of a number, and the readers for plain and signed numerals.
  A numeral is one or more ASCII digits; a signed one may start with a plus or a minus. Leading
  zeros are allowed and no bound is put on the length.
Main exports: Numeral.digits, Numeral.text, Numeral.nat?, Numeral.int?
-/

namespace TokenScan.Number.Numeral

/-- The decimal digits of a natural number, without leading zeros. -/
def digits (n : Nat) : List Char :=
  Nat.toDigits 10 n

/-- The decimal text of an integer, a minus in front of a negative one. -/
def chars (z : Int) : List Char :=
  if z < 0 then '-' :: digits z.natAbs else digits z.natAbs

/-- The decimal text of an integer. -/
def text (z : Int) : String :=
  String.ofList (chars z)

/-- The natural number written by one or more digits. -/
def nat? (cs : List Char) : Option Nat :=
  if cs ≠ [] ∧ cs.all Char.isDigit then some (Nat.ofDigitChars 10 cs 0) else none

/-- The integer written by an optional sign and one or more digits. -/
def int? : List Char → Option Int
  | '-' :: cs => (nat? cs).map fun n => -(n : Int)
  | '+' :: cs => (nat? cs).map Int.ofNat
  | cs => (nat? cs).map Int.ofNat

/-- The digits of a number read back as that number. -/
@[simp] theorem nat?_digits (n : Nat) : nat? (digits n) = some n := by
  have hne : digits n ≠ [] := Nat.toDigits_ne_nil
  have hall : (digits n).all Char.isDigit = true :=
    List.all_eq_true.2 fun c hc => Nat.isDigit_of_mem_toDigits (by decide) (by decide) hc
  unfold nat?
  rw [if_pos ⟨hne, hall⟩]
  exact congrArg some (Nat.ofDigitChars_toDigits (by decide) (by decide))

end TokenScan.Number.Numeral
