/-
Module: TokenScan.Filter.Literal
Purpose: The constants of filters and their texts. Planning works on the text, which is read back by
  the type of the column that it pins. Floats are their bit patterns.
Main exports: Literal, Literal.render, Literal.same
-/
import TokenScan.Binary.Shortest
import TokenScan.Text.Hex

namespace TokenScan

/-- A constant operand of a filter. -/
inductive Literal where
  | null
  | bool (b : Bool)
  | int (n : Int64)
  | float (bits : UInt64)
  | text (s : String)
  | bytes (bs : Bytes)
deriving DecidableEq, Repr, Inhabited

namespace Literal

/-- The literal is null. -/
def isNull : Literal → Bool
  | .null => true
  | _ => false

/-- The text of a literal: bytes in hexadecimal after `0x`, a text as it is. -/
def render : Literal → String
  | .null => "null"
  | .bool b => if b then "true" else "false"
  | .int n => Number.Numeral.text n.toInt
  | .float bits => Binary.Binary64.text bits
  | .text s => s
  | .bytes bs => String.ofList ('0' :: 'x' :: Text.Hex.encode bs)

/-- Equality of literals, where floats are compared as numbers. -/
def same : Literal → Literal → Bool
  | .float a, .float b => Binary.Binary64.same a b
  | a, b => a = b

end Literal

end TokenScan
