import ByteRecord.Decimal.Basic
import ByteRecord.Digits
import ByteRecord.WordRange

/-!
# Written references

The reference of a scalar tag is a number text. Both readers skip white space in front and must
use up the whole text. `Reference.integer?` reads decimal digits, or hexadecimal digits where the
text itself starts with the mark for them, and refuses what does not fit 64 bits;
`Reference.real?` reads decimal and hexadecimal fractions with an exponent and the names of the
special values, and rounds what it reads to the nearest number, beyond the range to infinity.
-/

namespace ByteRecord.Reference

/-- Takes off a sign: whether it was a minus, and the rest. -/
def takeSign : List Char → Bool × List Char
  | '-' :: rest => (true, rest)
  | '+' :: rest => (false, rest)
  | s => (false, s)

/-- What follows the mark of hexadecimal digits, if the text starts with it. -/
def afterHexMark? : List Char → Option (List Char)
  | '0' :: mark :: rest => if mark == 'x' || mark == 'X' then some rest else none
  | _ => none

/-- An integer of the given sign as a 64-bit number, if it fits. -/
def ofSigned? (negative : Bool) (value : Nat) : Option Int64 :=
  let n : Int := if negative then -(value : Int) else value
  if isSignedWord n then some (Int64.ofInt n) else none

/-- Reads an integer. -/
def integer? (s : List Char) : Option Int64 :=
  let (negative, rest) := takeSign s
  match afterHexMark? rest with
  | some (c :: digits) =>
    if (c :: digits).all isHexDigit then ofSigned? negative (hexNat (c :: digits)) else none
  | _ =>
    let (negative, digits) := takeSign (s.dropWhile isSpace)
    if allDigits digits then ofSigned? negative (decimalNat digits)
    else none

/-- Reads an optional exponent behind one of the two given marks. -/
def exponent? (lower upper : Char) : List Char → Option Int
  | [] => some 0
  | mark :: rest =>
    if mark ≠ lower ∧ mark ≠ upper then none
    else
      let (negative, digits) := takeSign rest
      if allDigits digits then
        some (if negative then -(decimalNat digits : Int) else decimalNat digits)
      else none

/-- The digits before and behind an optional point, at least one of them, and the rest. -/
def significand? (isDigit : Char → Bool) (s : List Char) :
    Option (List Char × List Char × List Char) :=
  let (whole, rest) := s.span isDigit
  let (fraction, rest) := match rest with
    | '.' :: rest => rest.span isDigit
    | rest => ([], rest)
  if whole.isEmpty && fraction.isEmpty then none else some (whole, fraction, rest)

/-- Powers of two beyond this one exceed every finite 64-bit number, and their reciprocals vanish
against the least positive one. -/
def farBinaryExponent : Nat := 1200

/-- The 64-bit magnitude nearest to `significand` times two to the `exponent`. -/
def binaryMagnitude (significand : Nat) (exponent : Int) : Nat :=
  if significand = 0 || decide (exponent + significand.log2 + 1 < -(farBinaryExponent : Int)) then 0
  else if (farBinaryExponent : Int) < exponent then Binary64.format.infinity
  else
    Binary64.format.nearest (significand * Nat.pow 2 exponent.toNat * Binary64.format.one)
      (Nat.pow 2 (-exponent).toNat)

/-- Reads what follows the mark of a hexadecimal fraction. -/
def hexMagnitude? (s : List Char) : Option Nat := do
  let (whole, fraction, rest) ← significand? isHexDigit s
  let exponent ← exponent? 'p' 'P' rest
  return binaryMagnitude (hexNat (whole ++ fraction)) (exponent - 4 * fraction.length)

/-- Reads a decimal fraction. -/
def decimalMagnitude? (s : List Char) : Option Nat := do
  let (whole, fraction, rest) ← significand? Char.isDigit s
  let exponent ← exponent? 'e' 'E' rest
  return Decimal.magnitude ⟨decimalNat (whole ++ fraction), exponent - fraction.length⟩

/-- Whether a character may stand in the parentheses behind the name of a NaN. -/
def isNaNChar (c : Char) : Bool := c.isAlphanum || c == '_'

/-- Reads the name of a special value in letters of either case. A NaN may be followed by letters,
digits and underscores in parentheses. They would choose its fraction, which is left out, as a NaN
equals nothing and is printed without it. -/
def specialMagnitude? (s : List Char) : Option Nat :=
  let lower := s.map Char.toLower
  if lower = "inf".toList || lower = "infinity".toList then some Binary64.format.infinity
  else if lower = "nan".toList then some Binary64.format.quietNaN
  else if "nan(".toList.isPrefixOf lower && s.getLast? = some ')'
      && ((s.drop 4).dropLast).all isNaNChar then
    some Binary64.format.quietNaN
  else none

/-- Reads a floating-point number. -/
def real? (s : List Char) : Option Binary64 :=
  let (negative, rest) := takeSign (s.dropWhile isSpace)
  let magnitude? := match afterHexMark? rest with
    | some digits => hexMagnitude? digits
    | none => (specialMagnitude? rest).orElse fun _ => decimalMagnitude? rest
  magnitude?.map (Binary64.ofMagnitude negative)

end ByteRecord.Reference
