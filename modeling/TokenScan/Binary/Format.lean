/-
Module: TokenScan.Binary.Format
Purpose: Binary floating point as bit patterns. A format is given by the widths of its two fields,
  and every finite magnitude is a whole number of units, the unit being the least positive number of
  the format. Rounding takes an exact quotient of naturals to the nearest pattern, a half going to
  the even one. No machine float occurs.
Main exports: Format, Format.units, Format.nearest, Format.convert, binary16, binary32, binary64,
  Binary64.same
-/

namespace TokenScan.Binary

/-- An interchange format: a sign bit, then the biased exponent, then the fraction. -/
structure Format where
  exponentBits : Nat
  fractionBits : Nat
deriving DecidableEq, Repr

/-- The half-precision format, 16 bits wide. -/
def binary16 : Format := ⟨5, 10⟩

/-- The single-precision format, 32 bits wide. -/
def binary32 : Format := ⟨8, 23⟩

/-- The double-precision format, 64 bits wide. -/
def binary64 : Format := ⟨11, 52⟩

namespace Format

/-- The pattern of positive infinity; larger magnitudes are not numbers. -/
def infinity (f : Format) : Nat :=
  ((1 <<< f.exponentBits) - 1) <<< f.fractionBits

/-- The pattern with only the sign bit set. -/
def signBit (f : Format) : Nat :=
  1 <<< (f.exponentBits + f.fractionBits)

/-- The quiet not-a-number with an empty payload. -/
def quietNaN (f : Format) : Nat :=
  f.infinity + (1 <<< (f.fractionBits - 1))

/-- One is this many units: the least positive number is its reciprocal. -/
def scale (f : Format) : Nat :=
  1 <<< ((1 <<< (f.exponentBits - 1)) + f.fractionBits - 2)

/-- The pattern without its sign. -/
def magnitude (f : Format) (bits : Nat) : Nat :=
  bits % f.signBit

/-- The sign bit is set; so it is for negative zero. -/
def isNegative (f : Format) (bits : Nat) : Bool :=
  f.signBit ≤ bits

/-- Patterns above infinity are no numbers. -/
def isNaN (f : Format) (bits : Nat) : Bool :=
  f.infinity < f.magnitude bits

/-- One of the two infinities. -/
def isInfinite (f : Format) (bits : Nat) : Bool :=
  f.magnitude bits = f.infinity

/-- A number that is not infinite. -/
def isFinite (f : Format) (bits : Nat) : Bool :=
  f.magnitude bits < f.infinity

/-- The units in a finite magnitude: the fraction with its hidden bit, doubled once for each step of
    the exponent above the least. -/
def units (f : Format) (bits : Nat) : Nat :=
  let exponent := f.magnitude bits >>> f.fractionBits
  let fraction := bits % (1 <<< f.fractionBits)
  if exponent = 0 then fraction else ((1 <<< f.fractionBits) + fraction) <<< (exponent - 1)

/-- The quotient rounded to the nearest natural number, a half to the even one. -/
def roundDiv (num den : Nat) : Nat :=
  let q := num / den
  let twice := 2 * (num % den)
  if twice < den then q else if den < twice then q + 1 else q + q % 2

/-- The magnitude nearest to `num / den`. The exponent steps are those that leave the significand
    one bit longer than the fraction; a significand rounded up to the next power carries into the
    exponent field, and a magnitude past the largest finite one is infinite. -/
def nearest (f : Format) (num den : Nat) : Nat :=
  let scaled := num * f.scale
  let steps := (scaled / den).log2 - f.fractionBits
  min ((steps <<< f.fractionBits) + roundDiv scaled (den <<< steps)) f.infinity

/-- A magnitude with its sign. -/
def withSign (f : Format) (negative : Bool) (magnitude : Nat) : Nat :=
  if negative then f.signBit + magnitude else magnitude

/-- The pattern of one format as one of another, rounded when it must be. A not-a-number keeps its
    sign and the leading bits of its payload, and becomes quiet. -/
def convert (source target : Format) (bits : Nat) : Nat :=
  target.withSign (source.isNegative bits) <|
    if source.isNaN bits then
      let payload := bits % (1 <<< source.fractionBits)
      let moved := (payload <<< target.fractionBits) >>> source.fractionBits
      target.quietNaN + moved % (1 <<< (target.fractionBits - 1))
    else if source.isInfinite bits then target.infinity
    else target.nearest (source.units bits) source.scale

end Format

namespace Binary64

/-- Equality of numbers: a not-a-number differs from everything, and the two zeros are one number.
    -/
def same (a b : UInt64) : Bool :=
  !binary64.isNaN a.toNat && !binary64.isNaN b.toNat &&
    (a == b || (binary64.magnitude a.toNat == 0 && binary64.magnitude b.toNat == 0))

/-- The number nearest to an integer. -/
def ofInt (z : Int) : UInt64 :=
  UInt64.ofNat (binary64.withSign (z < 0) (binary64.nearest z.natAbs 1))

end Binary64

end TokenScan.Binary
