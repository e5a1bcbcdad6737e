import ByteRecord.Decimal.Shortest
import ByteRecord.Json.Printer

/-!
# The shortest numerals

A printer to run the program with. It writes the fewest digits that read back, always with a fraction
or an exponent, and null for a number that is not finite. A library may write other digits, as long as
they read back; what holds of schemas and records holds for every printer, so it does not rest on this
one.
-/

namespace ByteRecord.RealPrinter

/-- Numerals are positional from four places after the point up to fifteen digits before it and
otherwise take an exponent of at least two digits. -/
def shortestLayout : DecimalLayout := ⟨-4, 15, 2⟩

/-- The printer of the fewest digits. -/
@[reducible]
def shortest : RealPrinter where
  text x :=
    if !x.isFinite then "null".toList
    else
      let sign := if x.negative then ['-'] else []
      let digits := if x.isZero then ⟨0, 0⟩ else x.shortest
      sign ++ shortestLayout.render digits

end ByteRecord.RealPrinter
