import ByteRecord.Json.Parser
import ByteRecord.Schema.Basic

/-!
# Compiling schema descriptions

A description is a JSON value: a text is a tag, an object a struct with its fields in order, and a
list either an array, which is an element and a length, or a branch. `Node.compile` turns a
description into a node or says at which place it is at fault. Array lengths may read only the
fields that the nearest enclosing struct declares before them.
-/

namespace ByteRecord

/-- The fields that are declared so far in the nearest enclosing struct, if there is one. -/
abbrev Declared := Option (List String)

/-- Whether a field is declared. -/
def Declared.has (declared : Declared) (name : String) : Bool :=
  declared.any fun names => names.contains name

/-- Whether the second item of a list of two makes it an array: a number does, and so does a text
that is no tag or that names a declared field. -/
def Declared.isLength (declared : Declared) : Json → Bool
  | .number _ => true
  | .string s => !Tag.isTag s || declared.has s
  | _ => false

/-- Reads an array length all of whose fields are declared. -/
def Declared.readLength (declared : Declared) (value : Json) : Except CompileError Length :=
  match Length.ofJson value with
  | .error cause => .error (.length cause)
  | .ok length =>
    match length.fields.find? fun name => !declared.has name with
    | some name => .error (.undeclaredField name)
    | none => .ok length

namespace Node

/-- An outcome with its fault placed. -/
def placed {α : Type} (path : Path) : Except CompileError α → Except SchemaError α
  | .ok a => .ok a
  | .error cause => .error (.compile path cause)

mutual

/-- Compiles a description at the given place. -/
def compileAt (path : Path) (declared : Declared) : Json → Except SchemaError Node
  | .string s =>
    match Tag.parse s with
    | .ok tag => .ok (leaf tag)
    | .error cause => .error (.compile path (.tag cause))
  | .object members => (compileFields path [] members).map struct
  | .array items =>
    match items with
    | [element, second] =>
      if declared.isLength second then do
        let length ← placed path (declared.readLength second)
        let element ← compileAt path.element declared element
        return array element length
      else (compileItems path declared 0 [element, second]).map branch
    | [] | [_] => .error (.compile path .tooShort)
    | first :: second :: rest => (compileItems path declared 0 (first :: second :: rest)).map branch
  | value => .error (.compile path (.noDescription value))

/-- Compiles the alternatives of a branch, from the item of the given number on. -/
def compileItems (path : Path) (declared : Declared) (index : Nat) :
    List Json → Except SchemaError (List Node)
  | [] => .ok []
  | item :: rest => do
    let node ← compileAt (path.item index) declared item
    let nodes ← compileItems path declared (index + 1) rest
    return node :: nodes

/-- Compiles the fields of a struct behind those that are declared already. -/
def compileFields (path : Path) (declared : List String) :
    List (String × Json) → Except SchemaError (List (String × Node))
  | [] => .ok []
  | (name, value) :: rest => do
    let node ← compileAt (path.field name) (some declared) value
    let fields ← compileFields path (declared ++ [name]) rest
    return (name, node) :: fields

end

/-- Compiles a description. -/
def compile (description : Json) : Except SchemaError Node :=
  compileAt .root none description

/-- Compiles a description as it was read from text. A text that is not JSON is a fault of the
schema, a number in it that is too large is none. -/
def compileRead : Except Json.ReadError Json → Except Error Node
  | .ok description => (compile description).mapError .schema
  | .error .malformed => .error (.schema .notJson)
  | .error .numberRange => .error (.json .numberRange)

/-- Compiles a description that is given as text. -/
def compileText (text : String) : Except Error Node := compileRead (Json.parse text)

end Node

end ByteRecord
