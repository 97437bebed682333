/-
Module: TokenScan.Binary.Literal
Purpose: Reading a float literal: an optional sign, then `inf`, `infinity` or `nan` in any case, or
  digits with an optional point and exponent. The value is rounded correctly from the exact decimal.
Main exports: Literal.decimal?, Literal.read?
-/
import TokenScan.Binary.Shortest

namespace TokenScan.Binary.Literal

open TokenScan.Number

/-- The value of the digits of an exponent. An exponent is taken digit by digit while it is below
    65536; the digits after that do not change it. -/
def exponentValue (digits : List Char) : Nat :=
  digits.foldl (fun n c => if n < 0x10000 then 10 * n + (c.toNat - 48) else n) 0

/-- The exponent that follows the digits: absent, or `e` or `E`, an optional sign and digits. -/
def exponent? : List Char → Option Int
  | [] => some 0
  | e :: cs =>
    if e = 'e' ∨ e = 'E' then
      let (negative, digits) := match cs with
        | '-' :: r => (true, r)
        | '+' :: r => (false, r)
        | r => (false, r)
      if digits ≠ [] ∧ digits.all Char.isDigit then
        some (if negative then -(exponentValue digits : Int) else exponentValue digits)
      else none
    else none

/-- Digits before and after an optional point, at least one in all, and an optional exponent. -/
def decimal? (cs : List Char) : Option Decimal :=
  let whole := cs.takeWhile Char.isDigit
  let afterWhole := cs.dropWhile Char.isDigit
  let (fraction, rest) := match afterWhole with
    | '.' :: r => (r.takeWhile Char.isDigit, r.dropWhile Char.isDigit)
    | r => ([], r)
  if whole ++ fraction = [] then none
  else (exponent? rest).map fun e =>
    ⟨Nat.ofDigitChars 10 (whole ++ fraction) 0, e - fraction.length⟩

/-- The magnitude written by a literal without its sign. -/
def magnitude? (f : Format) (cs : List Char) : Option Nat :=
  let word := cs.map Char.toLower
  if word = "inf".toList ∨ word = "infinity".toList then some f.infinity
  else if word = "nan".toList then some f.quietNaN
  else (decimal? cs).map fun d => f.nearest d.num d.den

/-- The pattern of a float literal. -/
def read? (f : Format) : List Char → Option Nat
  | '-' :: cs => (magnitude? f cs).map (f.withSign true)
  | '+' :: cs => magnitude? f cs
  | cs => magnitude? f cs

end TokenScan.Binary.Literal
