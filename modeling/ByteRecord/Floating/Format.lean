/-!
# Binary floating-point formats

A binary interchange format is given by the widths of its fraction and exponent fields. Below
the sign bit a word is a *magnitude*: a natural number whose order is the order of the values it
stands for. Every finite magnitude is a whole number of *units*, the least positive value of the
format, so all arithmetic is exact arithmetic on natural numbers followed by one rounding.

`FloatFormat.units` reads a finite magnitude, `FloatFormat.nearest` rounds a quotient of units to
the nearest magnitude with ties to the even one, and overflows to `FloatFormat.infinity`.
-/

namespace ByteRecord

/-- The quotient rounded to the nearest natural number; a quotient halfway between two of them
goes to the even one. The divisor is positive. -/
def roundHalfEven (num den : Nat) : Nat :=
  let floor := num / den
  let twice := 2 * (num % den)
  if twice < den then floor
  else if den < twice then floor + 1
  else floor + floor % 2

/-- Widths of the two fields below the sign bit of a binary interchange format. -/
structure FloatFormat where
  /-- Number of fraction bits, the low field. -/
  fractionBits : Nat
  /-- Number of exponent bits, the field above it. -/
  exponentBits : Nat

namespace FloatFormat

/-- Fractions are counted below this bound, which is also the weight of the hidden bit. -/
def fractionBound (format : FloatFormat) : Nat := Nat.pow 2 format.fractionBits

/-- The weight of the sign bit, and one more than the greatest magnitude. -/
def signBit (format : FloatFormat) : Nat := Nat.pow 2 (format.exponentBits + format.fractionBits)

/-- The magnitude with all exponent bits set and no fraction. Finite magnitudes lie below it and
those that are no number above it. -/
def infinity (format : FloatFormat) : Nat :=
  (Nat.pow 2 format.exponentBits - 1) * format.fractionBound

/-- The least positive value is two to the minus this many. -/
def unitExponent (format : FloatFormat) : Nat :=
  Nat.pow 2 (format.exponentBits - 1) - 2 + format.fractionBits

/-- How many units make one. -/
def one (format : FloatFormat) : Nat := Nat.pow 2 format.unitExponent

/-- The value of a finite magnitude in units. With an exponent field of zero the hidden bit is
absent. -/
def units (format : FloatFormat) (magnitude : Nat) : Nat :=
  let exponent := magnitude / format.fractionBound
  let fraction := magnitude % format.fractionBound
  if exponent = 0 then fraction
  else (format.fractionBound + fraction) * Nat.pow 2 (exponent - 1)

/-- How many low bits of a quotient do not fit the significand. -/
def excess (format : FloatFormat) (quotient : Nat) : Nat :=
  quotient.log2 - format.fractionBits

/-- The magnitude nearest to `num / den` units, the even one of two equally near, and infinity
beyond the largest. The significand is rounded once; adding the exponent on top of it carries a
significand that rounded up to the next power of two into the next binade. -/
def nearest (format : FloatFormat) (num den : Nat) : Nat :=
  let excess := format.excess (num / den)
  let significand := roundHalfEven num (den * Nat.pow 2 excess)
  min (significand + excess * format.fractionBound) format.infinity

/-- The leading fraction bit, set in a quiet NaN. -/
def quietBit (format : FloatFormat) : Nat := Nat.pow 2 (format.fractionBits - 1)

/-- The magnitude of the NaN that an invalid operation gives. -/
def quietNaN (format : FloatFormat) : Nat := format.infinity + format.quietBit

/-- The eleven-bit exponent and 52-bit fraction of a 64-bit word. -/
def binary64 : FloatFormat := ⟨52, 11⟩

/-- The eight-bit exponent and 23-bit fraction of a 32-bit word. -/
def binary32 : FloatFormat := ⟨23, 8⟩

/-- The fraction of a NaN carried over to another width: its leading bits are kept and the quiet
bit is set. -/
def carryPayload (source target : FloatFormat) (fraction : Nat) : Nat :=
  let aligned := fraction * target.fractionBound / source.fractionBound
  if target.quietBit ≤ aligned then aligned else aligned + target.quietBit

/-- A magnitude of one format as a magnitude of another: finite values are rounded, infinity
stays, a NaN keeps the leading bits of its fraction. -/
def convert (source target : FloatFormat) (magnitude : Nat) : Nat :=
  if magnitude < source.infinity then
    target.nearest (source.units magnitude * target.one) source.one
  else if magnitude = source.infinity then target.infinity
  else target.infinity + source.carryPayload target (magnitude - source.infinity)

end FloatFormat

end ByteRecord
