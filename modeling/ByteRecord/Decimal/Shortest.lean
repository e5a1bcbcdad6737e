import ByteRecord.Decimal.Basic

/-!
# The fewest digits that read back

`Binary64.shortest` gives a positive finite number the numeral with the fewest digits that reads
back as that number, and of those the nearest. On the grid of numerals with a given number of
digits only the two neighbours of the exact value need to be tried. Reading back is tested by
reading, so the answer reads back by construction; should no grid up to seventeen digits answer,
the exact numeral does.
-/

namespace ByteRecord

namespace Decimal

/-- How many decimal digits a natural number has. -/
def digitCount (n : Nat) : Nat := (Nat.toDigits 10 n).length

/-- Where the decimal point of a positive quotient stands: the number `n` for which the quotient
is at least ten to the `n - 1` and below ten to the `n`. -/
def pointPosition (num den : Nat) : Int :=
  if den ≤ num then digitCount (num / den)
  else
    let zeros := digitCount (den / num) - 1
    if den ≤ num * Nat.pow 10 zeros then 1 - (zeros : Int) else -(zeros : Int)

/-- The two neighbours of a positive quotient among the multiples of ten to the `exponent`, the
nearer one first and of two equally near ones the even one. -/
def neighbours (num den : Nat) (exponent : Int) : List Decimal :=
  let num := num * Nat.pow 10 (-exponent).toNat
  let den := den * Nat.pow 10 exponent.toNat
  let below := num / den
  let nearest := roundHalfEven num den
  let other := if nearest = below then below + 1 else below
  [⟨nearest, exponent⟩, ⟨other, exponent⟩]

end Decimal

namespace Binary64

/-- As many digits as always tell two finite numbers apart. -/
def enoughDigits : Nat := 17

/-- The exact value of a finite number as a numeral: halves are counted in tenths, one more place
for each halving. -/
def exactDecimal (x : Binary64) : Decimal :=
  ⟨x.units * Nat.pow 5 format.unitExponent, -(format.unitExponent : Int)⟩

/-- A neighbour on the grid with `count` digits that reads back, if there is one. -/
def decimalOfCount? (x : Binary64) (count : Nat) : Option Decimal :=
  let exponent := Decimal.pointPosition x.units format.one - count
  (Decimal.neighbours x.units format.one exponent).find? (·.magnitude == x.magnitude)

/-- The numeral with the fewest digits that reads back as the absolute value of a positive finite
number, without trailing zeros. -/
def shortest (x : Binary64) : Decimal :=
  let found := (List.range enoughDigits).findSome? fun fewer => x.decimalOfCount? (fewer + 1)
  (found.getD x.exactDecimal).trim

end Binary64

end ByteRecord
