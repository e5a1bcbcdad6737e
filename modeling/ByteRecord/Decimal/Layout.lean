import ByteRecord.Decimal.Basic

/-!
# Layout of a decimal numeral

Which digits are written and how they are laid out are two questions. This module answers the
second: a `DecimalLayout` says where the decimal point may stand in positional notation and how
long an exponent is, and `DecimalLayout.render` writes a numeral accordingly.
-/

namespace ByteRecord

/-- The decisions of a written form for decimal numerals. -/
structure DecimalLayout where
  /-- The point stands in positional notation only above this position; a position of zero is
  right before the first digit. -/
  above : Int
  /-- The greatest position of the point in positional notation. -/
  upTo : Int
  /-- The exponent is filled with zeros up to this many digits. -/
  exponentDigits : Nat

namespace DecimalLayout

/-- The decimal digits of a natural number. -/
def digits (n : Nat) : List Char := Nat.toDigits 10 n

/-- Zeros, as many as asked for. -/
def zeros (count : Nat) : List Char := List.replicate count '0'

/-- Digits with the point after the given number of them. A number without a fraction ends in a
point and a zero. -/
def pointAfter (count : Nat) (ds : List Char) : List Char :=
  if ds.length ≤ count then ds ++ zeros (count - ds.length) ++ ['.', '0']
  else ds.take count ++ '.' :: ds.drop count

/-- One digit, the others after a point if there are any, and a signed exponent. -/
def scientific (layout : DecimalLayout) (exponent : Int) (ds : List Char) : List Char :=
  let significand := match ds with
    | first :: second :: rest => first :: '.' :: second :: rest
    | ds => ds
  let power := digits exponent.natAbs
  let sign := if exponent < 0 then '-' else '+'
  significand ++ 'e' :: sign :: zeros (layout.exponentDigits - power.length) ++ power

/-- The text of a numeral without a sign. -/
def render (layout : DecimalLayout) (d : Decimal) : List Char :=
  let ds := digits d.digits
  let point := (ds.length : Int) + d.exponent
  if layout.above < point ∧ point ≤ layout.upTo then
    if 0 < point then pointAfter point.toNat ds
    else '0' :: '.' :: zeros (-point).toNat ++ ds
  else layout.scientific (point - 1) ds

end DecimalLayout

end ByteRecord
