import ByteRecord.Floating.Binary64

/-!
# 32-bit floating-point numbers

A 32-bit number is its word, as a 64-bit number is. Records hold 32-bit numbers in their bytes only:
`Binary32.widen` shows one as the 64-bit number of the same value, and `Binary64.narrow` rounds a
64-bit number to the nearest 32-bit one.
-/

namespace ByteRecord

/-- A 32-bit floating-point number, given by its word. -/
structure Binary32 where
  /-- The word: sign, exponent and fraction from the top. -/
  bits : UInt32
  deriving DecidableEq

namespace Binary32

/-- The format of the word. -/
abbrev format : FloatFormat := FloatFormat.binary32

/-- Whether the sign bit is set. -/
def negative (x : Binary32) : Bool := decide (format.signBit ≤ x.bits.toNat)

/-- The word without its sign bit. -/
def magnitude (x : Binary32) : Nat := x.bits.toNat % format.signBit

/-- The number with the given sign bit and magnitude. -/
def ofMagnitude (negative : Bool) (magnitude : Nat) : Binary32 :=
  ⟨UInt32.ofNat (magnitude + if negative then format.signBit else 0)⟩

/-- Whether the number is not a number. -/
def isNaN (x : Binary32) : Bool := decide (format.infinity < x.magnitude)

/-- The 64-bit number of the same value; a NaN keeps its fraction and becomes quiet. -/
def widen (x : Binary32) : Binary64 :=
  .ofMagnitude x.negative (format.convert Binary64.format x.magnitude)

end Binary32

/-- The 32-bit number nearest to this one, infinite beyond the range; a NaN keeps the leading bits
of its fraction and becomes quiet. -/
def Binary64.narrow (x : Binary64) : Binary32 :=
  Binary32.ofMagnitude x.negative (Binary64.format.convert Binary32.format x.magnitude)

end ByteRecord
