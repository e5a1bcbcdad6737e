import ByteRecord.Floating.Format

/-!
# 64-bit floating-point numbers

A number is its word: the sign bit above a magnitude of the format. Keeping the word makes the
byte codecs trivial and keeps the fraction bits of a NaN. The arithmetic is the exact result rounded
once; `Binary64.scaled` is the view through which it is defined, the signed number of least positive
values.
-/

namespace ByteRecord

/-- A 64-bit floating-point number, given by its word. -/
structure Binary64 where
  /-- The word: sign, exponent and fraction from the top. -/
  bits : UInt64
  deriving DecidableEq

namespace Binary64

/-- The format of the word. -/
abbrev format : FloatFormat := FloatFormat.binary64

/-- Whether the sign bit is set. -/
def negative (x : Binary64) : Bool := decide (format.signBit ≤ x.bits.toNat)

/-- The word without its sign bit. -/
def magnitude (x : Binary64) : Nat := x.bits.toNat % format.signBit

/-- The number with the given sign bit and magnitude. -/
def ofMagnitude (negative : Bool) (magnitude : Nat) : Binary64 :=
  ⟨UInt64.ofNat (magnitude + if negative then format.signBit else 0)⟩

/-- Whether the number is not a number. -/
def isNaN (x : Binary64) : Bool := decide (format.infinity < x.magnitude)

/-- Whether the number is neither infinite nor a NaN. -/
def isFinite (x : Binary64) : Bool := decide (x.magnitude < format.infinity)

/-- Whether the number is a zero of either sign. -/
def isZero (x : Binary64) : Bool := decide (x.magnitude = 0)

/-- The absolute value of a finite number in units of the least positive one. -/
def units (x : Binary64) : Nat := format.units x.magnitude

/-- The value of a finite number in units of the least positive one. Both zeros give zero. -/
def scaled (x : Binary64) : Int := if x.negative then -(x.units : Int) else x.units

/-- The NaN that an invalid operation gives. -/
def nan : Binary64 := ofMagnitude false format.quietNaN

/-- Infinity of the given sign. -/
def infinity (negative : Bool) : Binary64 := ofMagnitude negative format.infinity

/-- Zero of the given sign. -/
def zero (negative : Bool) : Binary64 := ofMagnitude negative 0

/-- The number nearest to `num / den` units, with the given sign. -/
def round (negative : Bool) (num den : Nat) : Binary64 :=
  ofMagnitude negative (format.nearest num den)

/-- The number nearest to an exact signed number of units; `sign` is that of an exact zero. -/
def roundScaled (value : Int) (sign : Bool) : Binary64 :=
  if value = 0 then zero sign else round (decide (value < 0)) value.natAbs 1

/-- The number nearest to an integer. -/
def ofInt (n : Int) : Binary64 := roundScaled (n * format.one) false

/-- The number nearest to a natural number. -/
def ofNat (n : Nat) : Binary64 := ofInt n

/-- The sum. Infinities of different signs have none; two zeros sum to a negative zero only if
both are negative. -/
def add (x y : Binary64) : Binary64 :=
  if x.isNaN || y.isNaN then nan
  else if x.isFinite && y.isFinite then
    roundScaled (x.scaled + y.scaled) (x.negative && y.negative)
  else if x.isFinite then y
  else if y.isFinite then x
  else if x.negative = y.negative then x
  else nan

/-- The number with the other sign bit. -/
def neg (x : Binary64) : Binary64 := ofMagnitude (!x.negative) x.magnitude

/-- The difference: the sum with the negated second number. -/
def sub (x y : Binary64) : Binary64 := if y.isNaN then nan else add x y.neg

/-- The product, with the sign of the product also at zero. An infinity times a zero has none. -/
def mul (x y : Binary64) : Binary64 :=
  let sign := x.negative != y.negative
  if x.isNaN || y.isNaN then nan
  else if x.isFinite && y.isFinite then round sign (x.units * y.units) format.one
  else if x.isZero || y.isZero then nan
  else infinity sign

/-- The quotient, with the sign of the quotient also at zero. A zero by a zero and an infinity by
an infinity have none; another number by zero is infinite. -/
def div (x y : Binary64) : Binary64 :=
  let sign := x.negative != y.negative
  if x.isNaN || y.isNaN then nan
  else if x.isFinite && y.isFinite then
    if y.isZero then if x.isZero then nan else infinity sign
    else round sign (x.units * format.one) y.units
  else if x.isFinite then zero sign
  else if y.isFinite then infinity sign
  else nan

instance : Add Binary64 := ⟨add⟩
instance : Sub Binary64 := ⟨sub⟩
instance : Mul Binary64 := ⟨mul⟩
instance : Div Binary64 := ⟨div⟩
instance : Neg Binary64 := ⟨neg⟩

/-- A signed magnitude, whose order is the order of the numbers that are no NaN. -/
def rank (x : Binary64) : Int := if x.negative then -(x.magnitude : Int) else x.magnitude

/-- Numerical equality: the two zeros are equal and a NaN equals nothing, itself included. -/
def equals (x y : Binary64) : Bool := !x.isNaN && !y.isNaN && x.rank == y.rank

/-- Numerical order, false wherever a NaN takes part. -/
def less (x y : Binary64) : Bool := !x.isNaN && !y.isNaN && decide (x.rank < y.rank)

/-- The integer part of a finite number, toward zero. -/
def truncate (x : Binary64) : Int :=
  let whole := x.units / format.one
  if x.negative then -(whole : Int) else whole

end Binary64

end ByteRecord
