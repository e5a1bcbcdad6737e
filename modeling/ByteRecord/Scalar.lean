import ByteRecord.Floating.Binary32
import ByteRecord.Json.Basic
import ByteRecord.Octets.Endian

/-!
# Scalar types and values

The eight scalar types of a record and the values that a word of each type stands for. A word is
the number that the bytes of a slot spell; `ScalarType.ofWord` and `ScalarType.toWord` are the two
directions between words and values, and `Scalar.toNumber` shows a value as a JSON number.
-/

namespace ByteRecord

/-- A scalar type. -/
inductive ScalarType where
  /-- A signed byte. -/
  | int8
  /-- An unsigned byte. -/
  | uint8
  /-- A signed number of two bytes. -/
  | int16
  /-- An unsigned number of two bytes. -/
  | uint16
  /-- A signed number of four bytes. -/
  | int32
  /-- An unsigned number of four bytes. -/
  | uint32
  /-- A floating-point number of four bytes. -/
  | float32
  /-- A floating-point number of eight bytes. -/
  | float64
  deriving DecidableEq

namespace ScalarType

/-- All scalar types. -/
def all : List ScalarType :=
  [int8, uint8, int16, uint16, int32, uint32, float32, float64]

/-- The name of the type in a tag. -/
def name : ScalarType → String
  | int8 => "int8"
  | uint8 => "uint8"
  | int16 => "int16"
  | uint16 => "uint16"
  | int32 => "int32"
  | uint32 => "uint32"
  | float32 => "float32"
  | float64 => "float64"

/-- The type of a name. -/
def ofName? (name : String) : Option ScalarType := all.find? fun type => type.name == name

/-- How many bytes a value takes without padding. -/
def size : ScalarType → Nat
  | int8 | uint8 => 1
  | int16 | uint16 => 2
  | int32 | uint32 | float32 => 4
  | float64 => 8

/-- Whether the values are floating-point numbers. -/
def isFloat : ScalarType → Bool
  | float32 | float64 => true
  | _ => false

/-- Whether the values may be negative. -/
def isSigned : ScalarType → Bool
  | uint8 | uint16 | uint32 => false
  | _ => true

/-- How many words the type has. -/
def wordBound (type : ScalarType) : Nat := Nat.pow 2 (8 * type.size)

end ScalarType

/-- The value of a scalar slot. -/
inductive Scalar where
  /-- The value of an unsigned integer slot. -/
  | unsigned (value : UInt64)
  /-- The value of a signed integer slot. -/
  | signed (value : Int64)
  /-- The value of a 32-bit floating-point slot. -/
  | single (value : Binary32)
  /-- The value of a 64-bit floating-point slot. -/
  | double (value : Binary64)
  deriving DecidableEq

/-- The value as a JSON number; a 32-bit floating-point number is widened. -/
def Scalar.toNumber : Scalar → Number
  | unsigned n => .unsigned n
  | signed n => .signed n
  | single x => .real x.widen
  | double x => .real x

namespace ScalarType

/-- The value that a word stands for. Signed integers are in two's complement. -/
def ofWord (type : ScalarType) (word : Nat) : Scalar :=
  match type with
  | uint8 | uint16 | uint32 => .unsigned (UInt64.ofNat word)
  | int8 | int16 | int32 => .signed (Int64.ofInt (Int.bmod word type.wordBound))
  | float32 => .single ⟨UInt32.ofNat word⟩
  | float64 => .double ⟨UInt64.ofNat word⟩

/-- The word that stands for a value. An integer is reduced modulo the number of words. -/
def toWord (type : ScalarType) : Scalar → Nat
  | .unsigned n => n.toNat % type.wordBound
  | .signed n => (n.toInt % type.wordBound).toNat
  | .single x => x.bits.toNat
  | .double x => x.bits.toNat

/-- The value that a slot's bytes in the given order stand for. -/
def ofOctets (type : ScalarType) (order : Endian) (bytes : List UInt8) : Scalar :=
  type.ofWord (order.word bytes)

/-- The bytes of a slot in the given order for a value. -/
def toOctets (type : ScalarType) (order : Endian) (value : Scalar) : List UInt8 :=
  order.octets type.size (type.toWord value)

/-- The values of the next `count` slots that follow one another without padding. -/
def ofSlots (type : ScalarType) (order : Endian) : (count : Nat) → List UInt8 → List Scalar
  | 0, _ => []
  | count + 1, bytes =>
    type.ofOctets order (bytes.take type.size)
      :: type.ofSlots order count (bytes.drop type.size)

end ScalarType

end ByteRecord
