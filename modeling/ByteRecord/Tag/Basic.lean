import ByteRecord.Json.Printer
import ByteRecord.Scalar

/-!
# Leaf tags

A tag describes one slot of a record: a scalar, a text of fixed width or a text that ends in a zero
byte. It may widen the slot and may demand that the value equals a reference or differs from it.
`Tag.text` is the written form of a tag.
-/

namespace ByteRecord

/-- A demand on a value: to equal the reference or, negated, to differ from it. -/
structure Constraint (α : Type) where
  /-- The reference. -/
  value : α
  /-- Whether the value must differ from the reference. -/
  negated : Bool
  deriving DecidableEq

/-- Whether a demand is met, given whether the value equals the reference. -/
def Constraint.admits {α : Type} (demand : Constraint α) (equal : Bool) : Bool :=
  equal != demand.negated

/-- The reference of a scalar: an integer for the integer types and a floating-point number for
the others. -/
inductive ScalarRef where
  /-- An integer. -/
  | integer (value : Int64)
  /-- A floating-point number. -/
  | real (value : Binary64)
  deriving DecidableEq

namespace ScalarRef

/-- Whether a number equals the reference. Numbers are compared as floating-point numbers if either
is one, otherwise as signed 64-bit integers. -/
def equals (ref : ScalarRef) (n : Number) : Bool :=
  match ref, n.toInt64? with
  | integer value, some n => n == value
  | integer value, none => n.toBinary64.equals (Binary64.ofInt value.toInt)
  | real value, _ => n.toBinary64.equals value

/-- The written form of the reference. -/
def chars [RealPrinter] : ScalarRef → List Char
  | integer value => Number.integerText value.toInt
  | real value => RealPrinter.text value

end ScalarRef

/-- The tag of a scalar slot. -/
structure ScalarTag where
  /-- The type of the value. -/
  type : ScalarType
  /-- The byte order of the slot. -/
  order : Endian
  /-- The least width of the slot in bytes. -/
  paddedTo : UInt64
  /-- The demand on the value, if there is one. -/
  constraint : Option (Constraint ScalarRef)

/-- The tag of a text slot. -/
structure TextTag where
  /-- The width of the slot in bytes. -/
  paddedTo : UInt64
  /-- The demand on the text, if there is one. -/
  constraint : Option (Constraint String)

/-- A leaf tag. -/
inductive Tag where
  /-- A scalar. -/
  | scalar (tag : ScalarTag)
  /-- A text of fixed width. -/
  | string (tag : TextTag)
  /-- A text that ends in a zero byte; its width is zero if nothing else bounds it. -/
  | cstring (tag : TextTag)

namespace ScalarTag

/-- The bytes behind the value that fill the slot. -/
def padding (tag : ScalarTag) : Nat := tag.paddedTo.toNat - tag.type.size

/-- How many bytes the slot takes. -/
def width (tag : ScalarTag) : UInt64 := max (UInt64.ofNat tag.type.size) tag.paddedTo

/-- Whether a number meets the demand of the tag. -/
def admits (tag : ScalarTag) (n : Number) : Bool :=
  tag.constraint.all fun demand => demand.admits (demand.value.equals n)

end ScalarTag

/-- Whether a text meets the demand of the tag. -/
def TextTag.admits (tag : TextTag) (s : String) : Bool :=
  tag.constraint.all fun demand => demand.admits (s == demand.value)

namespace Tag

/-- Whether the tag demands anything of its value. -/
def hasConstraint : Tag → Bool
  | scalar tag => tag.constraint.isSome
  | string tag | cstring tag => tag.constraint.isSome

/-- A width behind a colon. -/
def widthChars (width : UInt64) : List Char := ':' :: DecimalLayout.digits width.toNat

/-- A width behind a colon, unless it is zero. -/
def widthCharsIfAny (width : UInt64) : List Char :=
  if width = 0 then [] else widthChars width

/-- A reference behind the sign of the demand. -/
def constraintChars {α : Type} (written : α → List Char) : Option (Constraint α) → List Char
  | none => []
  | some demand => (if demand.negated then ['!', '='] else ['=']) ++ written demand.value

/-- The written form of the tag. -/
def chars [RealPrinter] : Tag → List Char
  | scalar tag =>
    tag.type.name.toList ++ (if tag.order = .little then ['l', 'e'] else [])
      ++ widthCharsIfAny tag.paddedTo ++ constraintChars ScalarRef.chars tag.constraint
  | string tag =>
    "string".toList ++ widthChars tag.paddedTo ++ constraintChars String.toList tag.constraint
  | cstring tag =>
    "cstring".toList ++ widthCharsIfAny tag.paddedTo
      ++ constraintChars String.toList tag.constraint

/-- The written form of the tag. -/
def text [RealPrinter] (tag : Tag) : String := String.ofList tag.chars

end Tag

end ByteRecord
