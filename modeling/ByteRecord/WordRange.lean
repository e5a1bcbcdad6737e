/-!
# Ranges of 64-bit words

Widths, offsets and counts are 64-bit words, unsigned or signed in two's complement. This module
holds the two bounds of their ranges.
-/

namespace ByteRecord

/-- How many 64-bit words there are: unsigned words are below it. -/
def wordCount : Nat := 18446744073709551616

/-- Signed 64-bit integers are below this bound and not below its negative. -/
def signedBound : Nat := 9223372036854775808

/-- The greatest unsigned 64-bit word. -/
def greatestWord : Nat := wordCount - 1

/-- The greatest signed 64-bit integer. -/
def greatestSigned : Nat := signedBound - 1

/-- Whether an integer is a signed 64-bit one. -/
def isSignedWord (n : Int) : Bool := decide (-(signedBound : Int) ≤ n) && decide (n < signedBound)

end ByteRecord
