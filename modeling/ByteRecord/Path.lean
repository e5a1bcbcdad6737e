/-!
# Places in schemas and records

A path leads from the whole to a part of a schema description or of a record. Its text names the
place in error messages.
-/

namespace ByteRecord

/-- A place in a schema description or in a record. -/
inductive Path where
  /-- The whole. -/
  | root
  /-- A named field of what stands at `parent`. -/
  | field (parent : Path) (name : String)
  /-- A numbered item of what stands at `parent`. -/
  | item (parent : Path) (index : Nat)
  /-- The element that an array description repeats. -/
  | element (parent : Path)
  deriving DecidableEq

/-- The text of the path. -/
def Path.text : Path → String
  | root => "$"
  | field parent name => parent.text ++ "." ++ name
  | item parent index => parent.text ++ "[" ++ index.repr ++ "]"
  | element parent => parent.text ++ "[]"

end ByteRecord
