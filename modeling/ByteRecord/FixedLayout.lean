import ByteRecord.Decode.Basic
import ByteRecord.Encode.Basic

/-!
# Fixed layouts

A struct all of whose fields have a fixed width and demand nothing gives random access: each field
has an offset and a size, and reading or writing it touches no other bytes. Offsets and sizes are
64-bit words and wrap.
-/

namespace ByteRecord

/-- A field at a fixed place. -/
structure PlacedField where
  /-- The name of the field. -/
  name : String
  /-- Where the field starts. -/
  offset : UInt64
  /-- How many bytes the field takes. -/
  size : UInt64
  /-- The node of the field. -/
  node : Node

/-- The bytes of a field. -/
def PlacedField.slice (field : PlacedField) (bytes : List UInt8) : List UInt8 :=
  (bytes.drop field.offset.toNat).take field.size.toNat

/-- The fields of a struct at fixed places, one after the other. -/
structure FixedLayout where
  /-- The fields in their order. -/
  fields : List PlacedField
  /-- How many bytes all fields take. -/
  size : UInt64

/-- Why a field of a fixed layout is not read or written. -/
inductive LayoutError where
  /-- The layout has no such field. -/
  | unknownField (name : String)
  /-- The bytes or the value do not fit. -/
  | access (cause : Error)

/-- The wording of the error. -/
def LayoutError.message [RealPrinter] : LayoutError → String
  | unknownField name => s!"No field named '{name}' in layout"
  | access cause => cause.message

namespace FixedLayout

/-- Places fields behind those that take `size` bytes. -/
def place (size : UInt64) : List (String × Node) → Except SchemaError FixedLayout
  | [] => .ok ⟨[], size⟩
  | (name, node) :: rest =>
    match node.fixedWidth? with
    | none => .error (.noFixedSize name)
    | some width =>
      if node.hasConstraint then .error (.hasConstraint name)
      else (place (size + width) rest).map fun layout =>
        ⟨⟨name, size, width, node⟩ :: layout.fields, layout.size⟩

/-- The fixed layout of a struct. -/
def ofNode : Node → Except SchemaError FixedLayout
  | .struct fields => place 0 fields
  | _ => .error .noStruct

/-- The first field of the given name. -/
def field (layout : FixedLayout) (name : String) : Except LayoutError PlacedField :=
  match layout.fields.find? fun field => field.name == name with
  | some field => .ok field
  | none => .error (.unknownField name)

/-- Looks up a field of a buffer that is as long as the layout. -/
def locate (layout : FixedLayout) (bytes : List UInt8) (name : String) :
    Except LayoutError PlacedField :=
  if bytes.length < layout.size.toNat then
    .error (.access (.bounds (.shortBuffer bytes.length layout.size.toNat)))
  else layout.field name

/-- Reads a field. -/
def get (layout : FixedLayout) (bytes : List UInt8) (name : String) : Except LayoutError Json := do
  let field ← layout.locate bytes name
  match (field.node.decode none (Reader.ofBytes (field.slice bytes))).verdict with
  | .matched value => .ok value
  | .noMatch => .error (.access (.schema (.fieldMismatch field.name)))
  | .failed cause => .error (.access cause)

/-- Writes a field of the buffer that the action works on. -/
def update (layout : FixedLayout) (name : String) (value : Json) :
    Action (List UInt8) LayoutError Unit := do
  let bytes ← MonadState.get
  let field ← layout.locate bytes name
  let c := Cursor.empty field.size.toNat .big false
  let encoding := field.node.encodeAt (.field .root field.name) value c
  let _ ← encoding.result.mapError LayoutError.access
  modify (Cursor.splice · field.offset.toNat (.bytes encoding.cursor.contents))

theorem on_update (layout : FixedLayout) (name : String) (value : Json) (bytes : List UInt8) :
    (layout.update name value).on bytes
      = match layout.locate bytes name with
        | .error cause => (.error cause, bytes)
        | .ok field =>
          let encoding := field.node.encodeAt (.field .root field.name) value
            (Cursor.empty field.size.toNat .big false)
          match encoding.result with
          | .error cause => (.error (.access cause), bytes)
          | .ok _ =>
            (.ok (), Cursor.splice bytes field.offset.toNat (.bytes encoding.cursor.contents)) := by
  rw [update, Action.on_bind, Action.on_get]
  dsimp only
  rw [Action.on_bind, Action.on_lift]
  cases layout.locate bytes name with
  | error cause => rfl
  | ok field =>
    dsimp only
    rw [Action.on_bind, Action.on_lift]
    cases (field.node.encodeAt (.field .root field.name) value
        (Cursor.empty field.size.toNat .big false)).result with
    | error cause => rfl
    | ok written => rfl

/-- The buffer behind a write, however it ends. -/
def after (layout : FixedLayout) (bytes : List UInt8) (name : String) (value : Json) :
    List UInt8 :=
  ((layout.update name value).on bytes).2

/-- Writes a field: the buffer with the bytes of the field replaced. -/
def set (layout : FixedLayout) (bytes : List UInt8) (name : String) (value : Json) :
    Except LayoutError (List UInt8) :=
  ((layout.update name value).on bytes).1.map fun _ => layout.after bytes name value

/-- Reads the named fields one after the other behind those that are `done`. -/
def readFields (layout : FixedLayout) (bytes : List UInt8) (done : Members) :
    List String → Except LayoutError Members
  | [] => .ok done
  | name :: rest => do
    let value ← layout.get bytes name
    layout.readFields bytes (done ++ [(name, value)]) rest

/-- Reads all fields in their order. -/
def readAll (layout : FixedLayout) (bytes : List UInt8) : Except LayoutError Json :=
  (layout.readFields bytes [] (layout.fields.map PlacedField.name)).map .object

end FixedLayout

end ByteRecord
