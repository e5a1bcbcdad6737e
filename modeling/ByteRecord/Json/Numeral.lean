import ByteRecord.Decimal.Basic
import ByteRecord.Digits
import ByteRecord.Json.Basic
import ByteRecord.WordRange

/-!
# Number texts

A JSON number is written as a whole part without leading zeros, an optional fraction and an optional
exponent. `Phase.next?` follows such a text character by character and says where it cannot go on,
`Number.ofChars` gives the number that a complete text stands for. A text without fraction and
exponent that fits 64 bits is an integer, any other a floating-point number, which is infinite if
the text lies beyond the finite ones.
-/

namespace ByteRecord

namespace Number

/-- How far a number text is read. -/
inductive Phase where
  /-- Behind the minus sign: a digit must follow. -/
  | sign
  /-- Behind a whole part of zero, which no digit may follow. -/
  | zero
  /-- In a whole part that does not start with zero. -/
  | whole
  /-- Behind the point: a digit must follow. -/
  | point
  /-- In the digits behind the point. -/
  | fraction
  /-- Behind the mark of the exponent: its sign or a digit must follow. -/
  | mark
  /-- Behind the sign of the exponent: a digit must follow. -/
  | exponentSign
  /-- In the digits of the exponent. -/
  | exponent
  deriving DecidableEq

namespace Phase

/-- The phase behind the first digit of the whole part. -/
def atDigit? (c : Char) : Option Phase :=
  if c = '0' then some zero else if c.isDigit then some whole else none

/-- The phase behind the first character of a number text. -/
def first? (c : Char) : Option Phase := if c = '-' then some sign else atDigit? c

/-- The phase behind the mark of an exponent. -/
def atMark? (c : Char) : Option Phase := if c = 'e' ∨ c = 'E' then some mark else none

/-- The phase behind a character that ends the whole part. -/
def behindWhole? (c : Char) : Option Phase := if c = '.' then some point else atMark? c

/-- The phase behind one more character, if the number text goes on with it. -/
def next? : Phase → Char → Option Phase
  | sign, c => atDigit? c
  | zero, c => behindWhole? c
  | whole, c => if c.isDigit then some whole else behindWhole? c
  | point, c => if c.isDigit then some fraction else none
  | fraction, c => if c.isDigit then some fraction else atMark? c
  | mark, c =>
    if c = '+' ∨ c = '-' then some exponentSign else if c.isDigit then some exponent else none
  | exponentSign, c => if c.isDigit then some exponent else none
  | exponent, c => if c.isDigit then some exponent else none

/-- Whether the number text may end here. -/
def isComplete : Phase → Bool
  | zero | whole | fraction | exponent => true
  | sign | point | mark | exponentSign => false

end Phase

/-- An integer of the given sign, if it fits the range for that sign. -/
def ofWhole? (negative : Bool) (value : Nat) : Option Number :=
  if negative then
    if value = 0 then some (unsigned 0)
    else if value ≤ signedBound then some (signed (Int64.ofInt (-(value : Int))))
    else none
  else if value < wordCount then some (unsigned (UInt64.ofNat value))
  else none

/-- The digits at the front of a text and what follows them. -/
def spanDigits (s : List Char) : List Char × List Char := s.span Char.isDigit

/-- The digits behind a point, if there is one, and what follows them. -/
def spanFraction : List Char → List Char × List Char
  | '.' :: rest => spanDigits rest
  | rest => ([], rest)

/-- The exponent that a mark, an optional sign and digits spell; without them it is zero. -/
def exponent : List Char → Int
  | [] => 0
  | _ :: '-' :: digits => -(decimalNat digits : Int)
  | _ :: '+' :: digits => decimalNat digits
  | _ :: digits => decimalNat digits

/-- The number that a text without minus sign stands for, with the given sign. -/
def ofUnsigned (negative : Bool) (s : List Char) : Number :=
  let (whole, rest) := spanDigits s
  match rest, ofWhole? negative (decimalNat whole) with
  | [], some n => n
  | rest, _ =>
    let (digits, rest) := spanFraction rest
    let decimal : Decimal := ⟨decimalNat (whole ++ digits), exponent rest - digits.length⟩
    real (decimal.toBinary64 negative)

/-- The number that a complete number text stands for. -/
def ofChars : List Char → Number
  | '-' :: rest => ofUnsigned true rest
  | s => ofUnsigned false s

/-- Whether the number is an integer or a finite floating-point number. -/
def isFinite : Number → Bool
  | real x => x.isFinite
  | _ => true

end Number

end ByteRecord
