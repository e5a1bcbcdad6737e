import ByteRecord.Error

/-!
# Schemas

A schema is a tree of nodes: tags at the leaves, and arrays, branches and structs above them.
`Node.describe` gives back the description of a node, `Node.fixedWidth?` the number of bytes that
every instance of it takes, and `Node.hasConstraint` says whether anything below it demands a
value.
-/

namespace ByteRecord

/-- A node of a schema. -/
inductive Node where
  /-- A single slot. -/
  | leaf (tag : Tag)
  /-- Equal elements in a row. -/
  | array (element : Node) (length : Length)
  /-- The first of some alternatives that matches. -/
  | branch (alternatives : List Node)
  /-- Named fields one after the other. -/
  | struct (fields : List (String × Node))

namespace Tag

/-- The number of bytes that every instance of the tag takes, if it is fixed. A text without a
width that ends in a zero byte takes as many as it needs. -/
def fixedWidth? : Tag → Option UInt64
  | scalar tag => some tag.width
  | string tag => some tag.paddedTo
  | cstring tag => if tag.paddedTo = 0 then none else some tag.paddedTo

end Tag

/-- The number of elements, if it is the same in every instance. -/
def Length.fixedCount? : Length → Option UInt64
  | literal n => if n < 0 then none else some n.toUInt64
  | _ => none

namespace Node

mutual

/-- The number of bytes that every instance of the node takes, if it is fixed. Products and sums
wrap at 64 bits. -/
def fixedWidth? : Node → Option UInt64
  | leaf tag => tag.fixedWidth?
  | array element length =>
    match length.fixedCount? with
    | none => none
    | some count => (fixedWidth? element).map (· * count)
  | branch _ => none
  | struct fields => fieldsWidth? 0 fields

/-- The width of the fields behind those that take `total` bytes. -/
def fieldsWidth? (total : UInt64) : List (String × Node) → Option UInt64
  | [] => some total
  | (_, node) :: rest =>
    match fixedWidth? node with
    | none => none
    | some width => fieldsWidth? (total + width) rest

end

mutual

/-- Whether the node or anything below it demands a value. -/
def hasConstraint : Node → Bool
  | leaf tag => tag.hasConstraint
  | array element _ => hasConstraint element
  | branch alternatives => anyConstraint alternatives
  | struct fields => anyFieldConstraint fields

/-- Whether any of the nodes demands a value. -/
def anyConstraint : List Node → Bool
  | [] => false
  | node :: rest => hasConstraint node || anyConstraint rest

/-- Whether any of the fields demands a value. -/
def anyFieldConstraint : List (String × Node) → Bool
  | [] => false
  | (_, node) :: rest => hasConstraint node || anyFieldConstraint rest

end

mutual

/-- The description that the node compiles from. -/
def describe [RealPrinter] : Node → Json
  | leaf tag => .string tag.text
  | array element length => .array [describe element, length.toJson]
  | branch alternatives => .array (describeAll alternatives)
  | struct fields => .object (describeFields fields)

/-- The descriptions of some nodes. -/
def describeAll [RealPrinter] : List Node → List Json
  | [] => []
  | node :: rest => describe node :: describeAll rest

/-- The descriptions of some fields. -/
def describeFields [RealPrinter] : List (String × Node) → Members
  | [] => []
  | (name, node) :: rest => (name, describe node) :: describeFields rest

end

/-- The field of a given name, if the node is a struct that has it. -/
def field? (node : Node) (name : String) : Option (String × Node) :=
  match node with
  | struct fields => fields.find? fun field => field.1 == name
  | _ => none

end Node

/-- What a schema is asked for that it does not have. -/
inductive UsageError where
  /-- An empty schema has no root. -/
  | emptySchema
  /-- Only a leaf has a tag. -/
  | compositeTag
  deriving DecidableEq

/-- The wording of the error. -/
def UsageError.message : UsageError → String
  | emptySchema => "Schema is empty"
  | compositeTag => "describe_tag called on a composite node"

/-- The tag text of a leaf. -/
def Node.tagText [RealPrinter] : Node → Except UsageError String
  | leaf tag => .ok tag.text
  | _ => .error .compositeTag

/-- A compiled schema, which may still be empty. -/
structure Schema where
  /-- The node that describes a whole record. -/
  root? : Option Node

namespace Schema

/-- The schema without a root. -/
def empty : Schema := ⟨none⟩

/-- The schema with the given root. -/
def ofNode (node : Node) : Schema := ⟨some node⟩

/-- Whether the schema has no root. -/
def isEmpty (schema : Schema) : Bool := schema.root?.isNone

/-- The node that describes a whole record. -/
def root (schema : Schema) : Except UsageError Node :=
  match schema.root? with
  | some node => .ok node
  | none => .error .emptySchema

/-- The description that the schema compiles from; null for an empty one. -/
def describe [RealPrinter] (schema : Schema) : Json :=
  match schema.root? with
  | some node => node.describe
  | none => .null

end Schema

end ByteRecord
