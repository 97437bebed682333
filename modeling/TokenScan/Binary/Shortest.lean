/-
Module: TokenScan.Binary.Shortest
Purpose: The text of a 64-bit float: the fewest decimal digits that read back as the same number,
  the nearest such digits, written in positional notation.
Main exports: Decimal, Shortest.decimal, Shortest.layout, Binary64.text
-/
import TokenScan.Binary.Format
import TokenScan.Number.Numeral

namespace TokenScan.Binary

open TokenScan.Number

/-- The decimal `coefficient * 10 ^ exponent`. -/
structure Decimal where
  coefficient : Nat
  exponent : Int
deriving DecidableEq, Repr

namespace Decimal

/-- Numerator of the decimal as an exact quotient. -/
def num (d : Decimal) : Nat :=
  d.coefficient * Nat.pow 10 d.exponent.toNat

/-- Denominator of the decimal as an exact quotient. -/
def den (d : Decimal) : Nat :=
  Nat.pow 10 (-d.exponent).toNat

end Decimal

namespace Shortest

/-- The exponent of the leading decimal digit of the positive quotient `num / den`. -/
def leadingExponent (num den : Nat) : Int :=
  if den ≤ num then ((Numeral.digits (num / den)).length : Int) - 1
  else -((Numeral.digits ((den - 1) / num)).length : Int)

/-- The decimal on the grid of exponent `exponent` that reads back as the magnitude `bits` and is
    nearest to its value, if either neighbour of the value on that grid does; a tie goes up. -/
def onGrid (f : Format) (bits : Nat) (exponent : Int) : Option Decimal :=
  let num := f.units bits * Nat.pow 10 (-exponent).toNat
  let den := f.scale * Nat.pow 10 exponent.toNat
  let below := Decimal.mk (num / den) exponent
  let above := Decimal.mk (num / den + 1) exponent
  let readsBack (d : Decimal) : Bool := f.nearest d.num d.den = bits
  match readsBack below, readsBack above with
  | true, true => if 2 * (num % den) < den then some below else some above
  | true, false => some below
  | false, true => some above
  | false, false => none

/-- The first of the grids that has a decimal reading back as `bits`, from the coarsest. -/
def search (f : Format) (bits : Nat) : Nat → Int → Decimal
  | 0, _ => ⟨0, 0⟩
  | fuel + 1, exponent =>
    match onGrid f bits exponent with
    | some d => d
    | none => search f bits fuel (exponent - 1)

/-- The shortest decimal of a positive finite magnitude. The first grid is that of the power of ten
    above the value; the grid of the least unit holds the value itself, so the search does not run
    past it. -/
def decimal (f : Format) (bits : Nat) : Decimal :=
  let start := leadingExponent (f.units bits) f.scale + 1
  search f bits (start + f.scale.log2 + 1).toNat start

/-- Positional notation: digits, a point only where digits follow it, and zeros to fill up. -/
def layout (d : Decimal) : List Char :=
  let digits := Numeral.digits d.coefficient
  if 0 ≤ d.exponent then digits ++ List.replicate d.exponent.toNat '0'
  else
    let places := (-d.exponent).toNat
    if places < digits.length then
      digits.take (digits.length - places) ++ '.' :: digits.drop (digits.length - places)
    else '0' :: '.' :: List.replicate (places - digits.length) '0' ++ digits

end Shortest

namespace Binary64

/-- The text of a 64-bit float. -/
def text (bits : UInt64) : String :=
  let f := binary64
  let sign := if f.isNegative bits.toNat then "-" else ""
  if f.isNaN bits.toNat then "NaN"
  else if f.isInfinite bits.toNat then sign ++ "inf"
  else if f.magnitude bits.toNat = 0 then sign ++ "0"
  else sign ++ String.ofList (Shortest.layout (Shortest.decimal f (f.magnitude bits.toNat)))

end Binary64

end TokenScan.Binary
