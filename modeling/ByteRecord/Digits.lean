/-!
# Digits

Decimal and hexadecimal digits and the numbers that runs of them spell. Counts and widths have a
greatest admissible value: `boundedNat?` reads such a run digit by digit and refuses it as soon as
the next digit would lead beyond the bound. The test divides the bound instead of multiplying the
value, so no intermediate value exceeds the bound. White space is what may stand before digits.
-/

namespace ByteRecord

/-- White space: a blank or one of the five characters that move the place of writing. -/
def isSpace (c : Char) : Bool :=
  c == ' ' || c == '\t' || c == '\n' || c == '\x0b' || c == '\x0c' || c == '\r'

/-- The number that a decimal digit stands for. -/
def digitValue (c : Char) : Nat := c.toNat - '0'.toNat

/-- The number that a run of decimal digits spells. -/
def decimalNat (digits : List Char) : Nat := Nat.ofDigitChars 10 digits 0

/-- Whether a text is a non-empty run of decimal digits. -/
def allDigits (s : List Char) : Bool := !s.isEmpty && s.all Char.isDigit

/-- Goes on reading digits behind those that gave `value`. -/
def boundedNatFrom? (bound value : Nat) : List Char → Option Nat
  | [] => some value
  | c :: rest =>
    if value ≤ (bound - digitValue c) / 10 then
      boundedNatFrom? bound (value * 10 + digitValue c) rest
    else none

/-- The number that a run of decimal digits spells, unless it exceeds the bound. -/
def boundedNat? (bound : Nat) (digits : List Char) : Option Nat := boundedNatFrom? bound 0 digits

/-- The number that a hexadecimal digit of either case stands for. -/
def hexValue? (c : Char) : Option Nat :=
  if c.isDigit then some (digitValue c)
  else if 'a' ≤ c ∧ c ≤ 'f' then some (c.toNat - 'a'.toNat + 10)
  else if 'A' ≤ c ∧ c ≤ 'F' then some (c.toNat - 'A'.toNat + 10)
  else none

/-- Whether a character is a hexadecimal digit. -/
def isHexDigit (c : Char) : Bool := (hexValue? c).isSome

/-- The number that a run of hexadecimal digits spells. -/
def hexNat (digits : List Char) : Nat :=
  digits.foldl (fun value c => value * 16 + (hexValue? c).getD 0) 0

end ByteRecord
