import ByteRecord.Tag.Basic
import ByteRecord.Tag.Reference
import ByteRecord.WordRange

/-!
# Reading tags

A tag is a base, an optional width behind the first colon and an optional reference behind the first
equals sign. The base is the name of a scalar type, which `le` may follow for little-endian order,
or the name of one of the two kinds of text. An exclamation mark right before the equals sign
negates the demand; for a scalar it may instead end the reference. `Tag.parse` reads a tag and says
why a text is none.
-/

namespace ByteRecord

/-- Why a text is no tag. -/
inductive TagError where
  /-- What follows the colon is no run of digits. -/
  | invalidPadding (padding tag : String)
  /-- The width does not fit 64 bits. -/
  | paddingOverflow (tag : String)
  /-- A text of fixed width lacks its width. -/
  | missingWidth (tag : String)
  /-- The base is no known name. -/
  | unknownType (tag : String)
  /-- The reference is no integer of 64 bits. -/
  | invalidInteger (reference tag : String)
  /-- The reference is no floating-point number. -/
  | invalidReal (reference tag : String)
  deriving DecidableEq

/-- The wording of the error. -/
def TagError.message : TagError → String
  | invalidPadding padding tag => s!"Invalid padding '{padding}' in tag '{tag}'"
  | paddingOverflow tag => s!"Padding overflows in tag '{tag}'"
  | missingWidth tag => s!"Tag 'string' requires a :paddedTo width ('{tag}')"
  | unknownType tag => s!"Unknown type tag '{tag}'"
  | invalidInteger reference tag => s!"Invalid integer reference '{reference}' in tag '{tag}'"
  | invalidReal reference tag => s!"Invalid float reference '{reference}' in tag '{tag}'"

namespace Tag

/-- A text cut at the first place of a character: what stands before it and, if it occurs, what
follows it. -/
def cut (mark : Char) (s : List Char) : List Char × Option (List Char) :=
  match s.span (· != mark) with
  | (before, _ :: behind) => (before, some behind)
  | (before, []) => (before, none)

/-- Takes off an exclamation mark at the end: whether there was one, and the rest. -/
def takeMark (s : List Char) : Bool × List Char :=
  if s.getLast? = some '!' then (true, s.dropLast) else (false, s)

/-- The parts of a tag: its base, its width if it has one, and its reference if it has one. -/
structure Parts where
  /-- The base. -/
  base : List Char
  /-- The digits behind the colon. -/
  width : Option (List Char)
  /-- The reference. -/
  reference : Option (List Char)
  /-- Whether an exclamation mark stands right before the equals sign. -/
  negated : Bool

/-- Takes a tag apart. The reference is cut off first, so it may hold any character. -/
def parts (s : List Char) : Parts :=
  match cut '=' s with
  | (shape, none) =>
    let (base, width) := cut ':' shape
    ⟨base, width, none, false⟩
  | (shape, some reference) =>
    let (negated, shape) := takeMark shape
    let (base, width) := cut ':' shape
    ⟨base, width, some reference, negated⟩

/-- Reads the width of a slot. -/
def readWidth (tag : String) (digits : List Char) : Except TagError UInt64 :=
  if !allDigits digits then .error (.invalidPadding (String.ofList digits) tag)
  else
    match boundedNat? greatestWord digits with
    | some width => .ok (UInt64.ofNat width)
    | none => .error (.paddingOverflow tag)

/-- Reads the base of a scalar tag: a type name that `le` may follow. -/
def scalarBase? (base : List Char) : Option (ScalarType × Endian) :=
  let shorter := base.take (base.length - 2)
  let little? := if base.drop (base.length - 2) = ['l', 'e'] then
    ScalarType.ofName? (String.ofList shorter) else none
  match little? with
  | some type => some (type, .little)
  | none => (ScalarType.ofName? (String.ofList base)).map (·, .big)

/-- Reads the reference of a scalar of the given type. -/
def readReference (tag : String) (type : ScalarType) (reference : List Char) :
    Except TagError ScalarRef :=
  if type.isFloat then
    match Reference.real? reference with
    | some x => .ok (.real x)
    | none => .error (.invalidReal (String.ofList reference) tag)
  else
    match Reference.integer? reference with
    | some n => .ok (.integer n)
    | none => .error (.invalidInteger (String.ofList reference) tag)

/-- Reads the demand of a scalar tag. Where no exclamation mark stands before the equals sign, one
at the end of the reference negates the demand. -/
def scalarConstraint (tag : String) (type : ScalarType) (parts : Parts) :
    Except TagError (Option (Constraint ScalarRef)) :=
  match parts.reference with
  | none => .ok none
  | some reference => do
    let (negated, reference) := if parts.negated then (true, reference) else takeMark reference
    let value ← readReference tag type reference
    return some ⟨value, negated⟩

/-- The demand of a text tag. -/
def textConstraint (parts : Parts) : Option (Constraint String) :=
  parts.reference.map fun reference => ⟨String.ofList reference, parts.negated⟩

/-- Reads a tag from its characters; `tag` is the whole text as errors quote it. -/
def parseParts (tag : String) (parts : Parts) : Except TagError Tag := do
  let width ← parts.width.mapM (readWidth tag)
  let paddedTo := width.getD 0
  if parts.base = "string".toList then
    if width.isNone then .error (.missingWidth tag)
    else return .string ⟨paddedTo, textConstraint parts⟩
  else if parts.base = "cstring".toList then
    return .cstring ⟨paddedTo, textConstraint parts⟩
  else
    match scalarBase? parts.base with
    | none => .error (.unknownType tag)
    | some (type, order) =>
      return .scalar ⟨type, order, paddedTo, ← scalarConstraint tag type parts⟩

/-- Reads a tag. -/
def parse (tag : String) : Except TagError Tag := parseParts tag (parts tag.toList)

/-- Whether a text is a tag. -/
def isTag (s : String) : Bool := (parse s).isOk

end Tag

end ByteRecord
