import ByteRecord.Floating.Binary64

/-!
# Decimal numerals

A numeral is a whole number of powers of ten. `Decimal.magnitude` gives the 64-bit magnitude
nearest to it by one exact quotient and one rounding, so a numeral is always read correctly
rounded. Numerals that stand far outside the range are settled by their exponent alone.
-/

namespace ByteRecord

/-- A non-negative decimal numeral: `digits` times ten to the `exponent`. -/
structure Decimal where
  /-- The digits as a whole number. -/
  digits : Nat
  /-- The power of ten that the last digit counts. -/
  exponent : Int
  deriving DecidableEq

namespace Decimal

/-- Powers of ten beyond this one exceed every finite 64-bit number, and their reciprocals vanish
against the least positive one. -/
def farExponent : Nat := 400

/-- Whether even a single unit of the last digit is too large to be finite. -/
def isHuge (d : Decimal) : Bool := decide ((farExponent : Int) < d.exponent)

/-- Whether the numeral lies so far below the least positive number that it rounds to zero. The
binary length of the digits bounds their number. -/
def isTiny (d : Decimal) : Bool :=
  decide (d.exponent + d.digits.log2 + 1 < -(farExponent : Int))

/-- The numeral as a quotient of natural numbers. -/
def fraction (d : Decimal) : Nat × Nat :=
  (d.digits * Nat.pow 10 d.exponent.toNat, Nat.pow 10 (-d.exponent).toNat)

/-- The 64-bit magnitude nearest to the numeral. -/
def magnitude (d : Decimal) : Nat :=
  if d.digits = 0 || d.isTiny then 0
  else if d.isHuge then Binary64.format.infinity
  else Binary64.format.nearest (d.fraction.1 * Binary64.format.one) d.fraction.2

/-- The 64-bit number nearest to the numeral with the given sign. -/
def toBinary64 (negative : Bool) (d : Decimal) : Binary64 :=
  Binary64.ofMagnitude negative d.magnitude

/-- The same number without trailing zeros among its digits. Zero keeps the exponent it reached.
Each step takes one digit off, so as many steps as there are binary digits are enough. -/
def trim (d : Decimal) : Decimal :=
  go (d.digits.log2 + 1) d
where
  /-- Takes off at most `steps` trailing zeros. -/
  go : Nat → Decimal → Decimal
    | 0, d => d
    | steps + 1, d =>
      if d.digits ≠ 0 ∧ d.digits % 10 = 0 then go steps ⟨d.digits / 10, d.exponent + 1⟩ else d

end Decimal

end ByteRecord
