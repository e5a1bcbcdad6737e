import ByteRecord.Schema.Basic

/-!
# Schemas as trees

Induction over the nodes of a schema, with one hypothesis for each alternative of a branch and for
each field of a struct. `Node.All` carries a property to every node of a tree; the kinds of schemas
that the laws of the codec speak about are defined through it.
-/

namespace ByteRecord

namespace Node

/-- A property of all nodes follows from what it says about the parts of a node. -/
@[induction_eliminator]
theorem ind {motive : Node → Prop} (leaf : ∀ tag, motive (leaf tag))
    (array : ∀ element length, motive element → motive (array element length))
    (branch : ∀ alternatives, (∀ node ∈ alternatives, motive node) → motive (branch alternatives))
    (struct : ∀ fields, (∀ field ∈ fields, motive field.2) → motive (struct fields))
    (node : Node) : motive node :=
  Node.rec (motive_1 := motive) (motive_2 := fun nodes => ∀ node ∈ nodes, motive node)
    (motive_3 := fun fields => ∀ field ∈ fields, motive field.2)
    (motive_4 := fun field => motive field.2)
    leaf array branch struct
    (List.forall_mem_nil _)
    (fun _ _ first rest => List.forall_mem_cons.mpr ⟨first, rest⟩)
    (List.forall_mem_nil _)
    (fun _ _ first rest => List.forall_mem_cons.mpr ⟨first, rest⟩)
    (fun _ _ node => node)
    node

/-- The property holds of the node and of all nodes below it. -/
inductive All (p : Node → Prop) : Node → Prop
  | leaf {tag : Tag} (here : p (leaf tag)) : All p (.leaf tag)
  | array {element : Node} {length : Length} (here : p (array element length))
      (below : All p element) : All p (.array element length)
  | branch {alternatives : List Node} (here : p (branch alternatives))
      (below : ∀ node ∈ alternatives, All p node) : All p (.branch alternatives)
  | struct {fields : List (String × Node)} (here : p (struct fields))
      (below : ∀ field ∈ fields, All p field.2) : All p (.struct fields)

/-- What holds of all nodes of a tree holds of its root. -/
theorem All.here {p : Node → Prop} {node : Node} (h : node.All p) : p node := by
  cases h with
  | leaf here => exact here
  | array here below => exact here
  | branch here below => exact here
  | struct here below => exact here

/-- What holds of all nodes of a tree may be weakened. -/
theorem All.mono {p q : Node → Prop} {node : Node} (h : node.All p)
    (weaker : ∀ node, p node → q node) : node.All q := by
  induction h with
  | leaf here => exact .leaf (weaker _ here)
  | array here below ih => exact .array (weaker _ here) ih
  | branch here below ih => exact .branch (weaker _ here) ih
  | struct here below ih => exact .struct (weaker _ here) ih

theorem All.element {p : Node → Prop} {element : Node} {length : Length}
    (h : (Node.array element length).All p) : element.All p := by
  cases h with
  | array here below => exact below

theorem All.alternative {p : Node → Prop} {alternatives : List Node} {node : Node}
    (h : (Node.branch alternatives).All p) (hnode : node ∈ alternatives) : node.All p := by
  cases h with
  | branch here below => exact below node hnode

theorem All.field {p : Node → Prop} {fields : List (String × Node)} {field : String × Node}
    (h : (Node.struct fields).All p) (hfield : field ∈ fields) : field.2.All p := by
  cases h with
  | struct here below => exact below field hfield

mutual

/-- The node with every array length below it changed. -/
def mapLengths (f : Length → Length) : Node → Node
  | leaf tag => leaf tag
  | array element length => array (mapLengths f element) (f length)
  | branch alternatives => branch (mapLengthsAll f alternatives)
  | struct fields => struct (mapLengthsFields f fields)

/-- The nodes with every array length below them changed. -/
def mapLengthsAll (f : Length → Length) : List Node → List Node
  | [] => []
  | node :: rest => mapLengths f node :: mapLengthsAll f rest

/-- The fields with every array length below them changed. -/
def mapLengthsFields (f : Length → Length) : List (String × Node) → List (String × Node)
  | [] => []
  | (name, node) :: rest => (name, mapLengths f node) :: mapLengthsFields f rest

end

theorem mapLengthsAll_eq_map (f : Length → Length) (nodes : List Node) :
    mapLengthsAll f nodes = nodes.map (mapLengths f) := by
  induction nodes with
  | nil => rfl
  | cons node rest ih => rw [mapLengthsAll, ih, List.map_cons]

theorem mapLengthsFields_eq_map (f : Length → Length) (fields : List (String × Node)) :
    mapLengthsFields f fields = fields.map fun field => (field.1, mapLengths f field.2) := by
  induction fields with
  | nil => rfl
  | cons field rest ih => rw [mapLengthsFields, ih, List.map_cons]

/-- Lengths that stay what they are change nothing. -/
@[simp] theorem mapLengths_id (node : Node) : node.mapLengths id = node := by
  induction node with
  | leaf tag => rfl
  | array element length ih => rw [mapLengths, ih, id]
  | branch alternatives ih =>
    rw [mapLengths, mapLengthsAll_eq_map, List.map_congr_left ih, List.map_id']
  | struct fields ih =>
    have hfields : ∀ field ∈ fields, (field.1, field.2.mapLengths id) = field :=
      fun field hfield => by rw [ih field hfield]
    rw [mapLengths, mapLengthsFields_eq_map, List.map_congr_left hfields, List.map_id']

/-- The node is no branch. -/
def NoBranch : Node → Prop
  | branch _ => False
  | _ => True

/-- The fields of the node have different names, if it is a struct. -/
def NamesDiffer : Node → Prop
  | struct fields => (fields.map Prod.fst).Nodup
  | _ => True

/-- The length of the node is a count that can be told without the data, if it is an array. -/
def CountKnown : Node → Prop
  | array _ .remainder | array _ (.fromEnd _) => False
  | _ => True

/-- The node demands nothing of its value, if it is a leaf. -/
def NoDemand : Node → Prop
  | leaf tag => tag.hasConstraint = false
  | _ => True

/-- No branch occurs in the schema. -/
abbrev BranchFree (node : Node) : Prop := node.All NoBranch

/-- The fields of every struct in the schema have different names. -/
abbrev DistinctNames (node : Node) : Prop := node.All NamesDiffer

/-- No array in the schema runs to the end of the data or counts from it. -/
abbrev CountsKnown (node : Node) : Prop := node.All CountKnown

/-- No reference occurs in the schema. -/
abbrev DemandFree (node : Node) : Prop := node.All NoDemand

theorem anyConstraint_eq_false_iff {nodes : List Node} :
    anyConstraint nodes = false ↔ ∀ node ∈ nodes, node.hasConstraint = false := by
  induction nodes with
  | nil => exact iff_of_true rfl (List.forall_mem_nil _)
  | cons node rest ih => rw [anyConstraint, Bool.or_eq_false_iff, List.forall_mem_cons, ih]

theorem anyFieldConstraint_eq_false_iff {fields : List (String × Node)} :
    anyFieldConstraint fields = false ↔ ∀ field ∈ fields, field.2.hasConstraint = false := by
  induction fields with
  | nil => exact iff_of_true rfl (List.forall_mem_nil _)
  | cons field rest ih => rw [anyFieldConstraint, Bool.or_eq_false_iff, List.forall_mem_cons, ih]

/-- Whether anything below a node demands a value is whether a reference occurs in it. -/
theorem hasConstraint_eq_false_iff {node : Node} :
    node.hasConstraint = false ↔ node.DemandFree := by
  induction node with
  | leaf tag => exact ⟨fun h => .leaf h, fun h => h.here⟩
  | array element length ih =>
    rw [hasConstraint, ih]
    exact ⟨fun h => .array trivial h, fun h => h.element⟩
  | branch alternatives ih =>
    rw [hasConstraint, anyConstraint_eq_false_iff]
    exact ⟨fun h => .branch trivial fun node hnode => (ih node hnode).mp (h node hnode),
      fun h node hnode => (ih node hnode).mpr (h.alternative hnode)⟩
  | struct fields ih =>
    rw [hasConstraint, anyFieldConstraint_eq_false_iff]
    exact ⟨fun h => .struct trivial fun field hfield => (ih field hfield).mp (h field hfield),
      fun h field hfield => (ih field hfield).mpr (h.field hfield)⟩

/-- No branch occurs below a branch-free node, which is no branch itself. -/
theorem BranchFree.not_branch {alternatives : List Node} :
    ¬ (branch alternatives).BranchFree := fun h => h.here

end Node

end ByteRecord
