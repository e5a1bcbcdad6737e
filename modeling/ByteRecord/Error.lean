import ByteRecord.Json.Parser
import ByteRecord.Length.Grammar
import ByteRecord.Path
import ByteRecord.Tag.Grammar

/-!
# Errors

What can go wrong with a schema, with a record and with the bytes, one constructor for each cause.
The classes are joined in `Error`; each class words its own causes in its `message`.
-/

namespace ByteRecord

/-- Why a schema description does not compile. -/
inductive CompileError where
  /-- A text that should be a tag is none. -/
  | tag (cause : TagError)
  /-- A value that should be an array length is none. -/
  | length (cause : LengthError)
  /-- An array length reads a field that no earlier declaration in the struct introduces. -/
  | undeclaredField (name : String)
  /-- A list has fewer than two items. -/
  | tooShort
  /-- A value describes nothing. -/
  | noDescription (value : Json)

/-- The wording of the error. -/
def CompileError.message [RealPrinter] : CompileError → String
  | tag cause => cause.message
  | length cause => cause.message
  | undeclaredField name => s!"array length references field '{name}' before it is declared"
  | tooShort => "a branch needs at least two alternatives, an array needs [type, length]"
  | noDescription value => s!"expected a type tag, an object or a list, got {value.compact}"

/-- Why a field that an array length names has no number. -/
inductive LookupError where
  /-- No struct encloses the array. -/
  | outsideStruct (name : String)
  /-- The enclosing struct has no such field yet. -/
  | undefinedField (name : String)
  /-- The field is there, but it is no number. -/
  | notNumeric (name : String)
  deriving DecidableEq

/-- The wording of the error. -/
def LookupError.message : LookupError → String
  | outsideStruct name => s!"Array length references field '{name}' outside of a struct"
  | undefinedField name => s!"Array length references undefined field '{name}'"
  | notNumeric name => s!"Array length field '{name}' is not numeric"

/-- What is wrong with a schema, by itself or for the use that is made of it. -/
inductive SchemaError where
  /-- The text of the schema is not JSON. -/
  | notJson
  /-- The description does not compile at a place. -/
  | compile (path : Path) (cause : CompileError)
  /-- An array length has no value. -/
  | lookup (cause : LookupError)
  /-- A record does not say which alternative of a branch it came from. -/
  | branch (path : Path)
  /-- A fixed layout is asked for something else than a struct. -/
  | noStruct
  /-- A field of a fixed layout has no fixed size. -/
  | noFixedSize (name : String)
  /-- A field of a fixed layout demands something of its value. -/
  | hasConstraint (name : String)
  /-- A field of a fixed layout did not match its bytes. -/
  | fieldMismatch (name : String)

/-- The wording of the error. -/
def SchemaError.message [RealPrinter] : SchemaError → String
  | notJson => "Schema is not valid JSON: " ++ Json.ReadError.malformed.message
  | compile path cause => path.text ++ ": " ++ cause.message
  | lookup cause => cause.message
  | branch path => path.text ++ ": branch nodes cannot be encoded, encode the chosen alternative"
  | noStruct => "A fixed layout needs a struct at the schema root"
  | noFixedSize name => s!"Field '{name}' has no fixed size"
  | hasConstraint name => s!"Field '{name}' carries a reference constraint"
  | fieldMismatch name => s!"Field '{name}' did not decode"

/-- What is done with a run of bytes. -/
inductive Access where
  /-- A scalar is read. -/
  | scalar
  /-- A text of known width is read. -/
  | text
  /-- A slot with a text that ends in a zero byte is read. -/
  | paddedText
  /-- Bytes are passed over. -/
  | skip
  deriving DecidableEq

/-- How error messages name the access. -/
def Access.name : Access → String
  | scalar => "read"
  | text => "read_string"
  | paddedText => "read_cstring"
  | skip => "skip"

/-- Which bytes or elements are asked for and not there. -/
inductive BoundsError where
  /-- An access of `count` bytes at `offset` reaches beyond the `size` bytes there are. -/
  | pastEnd (access : Access) (count offset size : Nat)
  /-- An array of `count` scalars at `offset` reaches beyond the `size` bytes there are. -/
  | arrayPastEnd (count offset size : Nat)
  /-- No zero byte follows the text at `offset`. -/
  | unterminated (offset size : Nat)
  /-- An array length is negative or no finite number. -/
  | invalidCount (length : String) (value : Binary64)
  /-- An array length does not fit 64 bits. -/
  | hugeCount (length : String)
  /-- Decoding is to start beyond the bytes. -/
  | decodeOffset (offset size : Nat)
  /-- Encoding is to start beyond the bytes. -/
  | encodeOffset (offset size : Nat)
  /-- A buffer is shorter than its fixed layout. -/
  | shortBuffer (available size : Nat)
  deriving DecidableEq

/-- The wording of the error. -/
def BoundsError.message [RealPrinter] : BoundsError → String
  | pastEnd access count offset size =>
    s!"{access.name} of {count} bytes at offset {offset} runs past end of data ({size})"
  | arrayPastEnd count offset size =>
    s!"map_array of {count} elements at offset {offset} runs past end of data ({size})"
  | unterminated offset size =>
    s!"Unterminated cstring at offset {offset} (data ends at {size})"
  | invalidCount length value =>
    s!"Array length '{length}' evaluated to {String.ofList (RealPrinter.text value)}"
  | hugeCount length => s!"Array length '{length}' is too large"
  | decodeOffset offset size => s!"Decode offset {offset} is past the end of {size} bytes"
  | encodeOffset offset size => s!"Encode offset {offset} is past the end of data ({size})"
  | shortBuffer available size =>
    s!"Buffer of {available} bytes is smaller than the layout ({size})"

/-- What a schema may expect of a value in a record. -/
inductive Shape where
  /-- A number. -/
  | number
  /-- A text. -/
  | string
  /-- A list of values. -/
  | array
  /-- Named values. -/
  | object
  deriving DecidableEq

/-- How error messages name what is expected. -/
def Shape.name : Shape → String
  | number => "a number"
  | string => "a string"
  | array => "an array"
  | object => "an object"

/-- Why a value in a record does not have the shape that the schema asks for. -/
inductive RecordError where
  /-- The value is of another kind. -/
  | unexpected (expected : Shape) (kind : String)
  /-- A floating-point number lies outside the range of integers. -/
  | outOfRange (value : Binary64)
  /-- A text holds a character that is not that of a byte. -/
  | wideCharacter
  /-- The length of an array comes out as no count. -/
  | count (cause : BoundsError)
  /-- An array has another number of elements than its length requires. -/
  | wrongCount (size : Nat) (length : String) (required : Nat)
  /-- A field is missing. -/
  | missingField
  deriving DecidableEq

/-- The wording of the error. -/
def RecordError.message [RealPrinter] : RecordError → String
  | unexpected expected kind => s!"expected {expected.name}, got {kind}"
  | outOfRange value =>
    s!"{String.ofList (RealPrinter.text value)} does not fit an integer field"
  | wideCharacter => "string holds a character above U+00FF or invalid UTF-8"
  | count cause => cause.message
  | wrongCount size length required =>
    s!"array has {size} elements, length '{length}' requires {required}"
  | missingField => "missing field"

/-- Why a buffer does not take the bytes that are written to it. -/
inductive CapacityError where
  /-- The end of the write has no 64-bit address. -/
  | addressSpace
  /-- The buffer may not grow and `count` bytes at `offset` exceed its capacity. -/
  | full (count offset capacity : Nat)
  /-- No doubling of the capacity ever reaches the size that is needed. -/
  | unreachable (size : Nat)
  deriving DecidableEq

/-- The wording of the error. -/
def CapacityError.message : CapacityError → String
  | addressSpace => "write size overflows the address space"
  | full count offset capacity =>
    s!"write of {count} bytes at offset {offset} exceeds fixed capacity {capacity}"
  | unreachable size => s!"no doubling of the capacity reaches {size} bytes"

/-- What can go wrong when schemas are compiled, bytes decoded or records encoded. -/
inductive Error where
  /-- A text cannot be read as JSON. -/
  | json (cause : Json.ReadError)
  /-- The schema is at fault. -/
  | schema (cause : SchemaError)
  /-- The record is at fault at a place. -/
  | record (path : Path) (cause : RecordError)
  /-- Bytes are missing. -/
  | bounds (cause : BoundsError)
  /-- Bytes do not fit. -/
  | capacity (cause : CapacityError)

/-- The wording of the error. -/
def Error.message [RealPrinter] : Error → String
  | json cause => cause.message
  | schema cause => cause.message
  | record path cause => path.text ++ ": " ++ cause.message
  | bounds cause => cause.message
  | capacity cause => cause.message

end ByteRecord
