import ByteRecord.Proofs.Json.Reading
import ByteRecord.Proofs.Schema.Tree
import ByteRecord.Proofs.Success
import ByteRecord.Schema.Compile

/-!
# What compiling guarantees

A schema that compiles is closed in two ways that its codec relies on: the fields of every struct
have different names, and every array length reads only fields that stand before it in the nearest
struct.
-/

namespace ByteRecord

namespace Node

mutual

/-- Every array length in the node reads declared fields only. -/
def ScopedIn (declared : Declared) : Node → Prop
  | leaf _ => True
  | array element length =>
    (∀ name ∈ length.fields, declared.has name = true) ∧ ScopedIn declared element
  | branch alternatives => AllScopedIn declared alternatives
  | struct fields => FieldsScopedIn [] fields

/-- Every array length in the nodes reads declared fields only. -/
def AllScopedIn (declared : Declared) : List Node → Prop
  | [] => True
  | node :: rest => ScopedIn declared node ∧ AllScopedIn declared rest

/-- Every array length in the fields reads the declared ones or those before its own field. -/
def FieldsScopedIn (declared : List String) : List (String × Node) → Prop
  | [] => True
  | (name, node) :: rest =>
    ScopedIn (some declared) node ∧ FieldsScopedIn (declared ++ [name]) rest

end

variable {path : Path} {declared : Declared} {description : Json} {node : Node}

/-- What a description that compiles is, and what it compiles to. -/
inductive Compiles (path : Path) (declared : Declared) : Json → Node → Prop
  /-- A text is a tag. -/
  | leaf {s : String} {tag : Tag} (parses : Tag.parse s = .ok tag) :
      Compiles path declared (.string s) (leaf tag)
  /-- A list of an element and a length is an array. -/
  | array {element second : Json} {node : Node} {length : Length}
      (reads : ∀ name ∈ length.fields, declared.has name = true)
      (below : compileAt path.element declared element = .ok node)
      (spells : Length.ofJson second = .ok length) :
      Compiles path declared (.array [element, second]) (array node length)
  /-- Another list is a branch. -/
  | branch {items : List Json} {nodes : List Node}
      (below : compileItems path declared 0 items = .ok nodes) (several : 2 ≤ items.length) :
      Compiles path declared (.array items) (branch nodes)
  /-- An object is a struct. -/
  | struct {members : Members} {fields : List (String × Node)}
      (below : compileFields path [] members = .ok fields) :
      Compiles path declared (.object members) (struct fields)

/-- A length is read if it is one that reads declared fields only. -/
theorem readLength_eq_ok_iff {value : Json} {length : Length} :
    declared.readLength value = .ok length ↔
      Length.ofJson value = .ok length ∧ ∀ name ∈ length.fields, declared.has name = true := by
  have hnone : ∀ other : Length, (other.fields.find? fun name => !declared.has name) = none ↔
      ∀ name ∈ other.fields, declared.has name = true := by
    intro other
    simp only [List.find?_eq_none, Bool.not_eq_true', Bool.not_eq_false]
  unfold Declared.readLength
  cases hvalue : Length.ofJson value with
  | error cause => exact ⟨fun h => (by cases h), fun h => (by cases h.1)⟩
  | ok other =>
    dsimp only
    constructor
    · intro h
      split at h
      · cases h
      · rename_i hfind
        injection h with h
        rw [← h]
        exact ⟨rfl, (hnone other).mp hfind⟩
    · intro h
      obtain ⟨hother, hfields⟩ := h
      injection hother with hother
      rw [hother, (hnone length).mpr hfields]

theorem placed_eq_ok_iff {α : Type} {x : Except CompileError α} {a : α} :
    placed path x = .ok a ↔ x = .ok a := by
  cases x <;> simp [placed]

/-- Every description that compiles is of one of the four kinds. -/
theorem compiles_of_compileAt (h : compileAt path declared description = .ok node) :
    Compiles path declared description node := by
  cases description with
  | string s =>
    rw [compileAt] at h
    split at h
    · rename_i tag hparse
      injection h with h
      exact h ▸ .leaf hparse
    · cases h
  | object members =>
    rw [compileAt] at h
    obtain ⟨fields, hfields, rfl⟩ := map_eq_ok_iff.mp h
    exact .struct hfields
  | array items =>
    have hbranch : ∀ items, (compileItems path declared 0 items).map branch = .ok node →
        2 ≤ items.length → Compiles path declared (.array items) node := by
      intro items hitems hseveral
      obtain ⟨nodes, hnodes, rfl⟩ := map_eq_ok_iff.mp hitems
      exact .branch hnodes hseveral
    match items with
    | [] => cases h
    | [_] => cases h
    | [element, second] =>
      rw [compileAt] at h
      split at h
      · obtain ⟨length, hlength, h⟩ := bind_eq_ok_iff.mp h
        obtain ⟨node, helement, h⟩ := bind_eq_ok_iff.mp h
        injection h with h
        obtain ⟨hspells, hreads⟩ := readLength_eq_ok_iff.mp (placed_eq_ok_iff.mp hlength)
        exact h ▸ .array hreads helement hspells
      · exact hbranch _ h (Nat.le_refl 2)
    | _ :: _ :: _ :: _ =>
      rw [compileAt] at h
      · exact hbranch _ h (Nat.le_add_left 2 _)
      · intro hnil
        cases hnil
  | _ => cases h

/-- Nodes that compile are those that the items compile to. -/
theorem exists_of_compileItems {items : List Json} {nodes : List Node} {index : Nat}
    (h : compileItems path declared index items = .ok nodes) :
    ∀ node ∈ nodes, ∃ item ∈ items, ∃ path, compileAt path declared item = .ok node := by
  induction items generalizing index nodes with
  | nil =>
    rw [compileItems] at h
    injection h with h
    exact h ▸ List.forall_mem_nil _
  | cons item rest ih =>
    rw [compileItems] at h
    obtain ⟨first, hitem, h⟩ := bind_eq_ok_iff.mp h
    obtain ⟨others, hrest, h⟩ := bind_eq_ok_iff.mp h
    injection h with h
    subst h
    refine List.forall_mem_cons.mpr ⟨⟨item, List.mem_cons_self, _, hitem⟩, ?_⟩
    intro node hnode
    obtain ⟨source, hsource, hcompile⟩ := ih hrest node hnode
    exact ⟨source, List.mem_cons_of_mem _ hsource, hcompile⟩

/-- The first of some fields compiles with those before it declared, and is declared for the
others. -/
theorem compileFields_cons {name : String} {value : Json} {rest : Members}
    {names : List String} {fields : List (String × Node)}
    (h : compileFields path names ((name, value) :: rest) = .ok fields) :
    ∃ node others, fields = (name, node) :: others
      ∧ compileAt (path.field name) (some names) value = .ok node
      ∧ compileFields path (names ++ [name]) rest = .ok others := by
  rw [compileFields] at h
  obtain ⟨node, hvalue, h⟩ := bind_eq_ok_iff.mp h
  obtain ⟨others, hrest, h⟩ := bind_eq_ok_iff.mp h
  injection h with h
  exact ⟨node, others, h.symm, hvalue, hrest⟩

theorem names_of_compileFields {members : Members} {names : List String}
    {fields : List (String × Node)} (h : compileFields path names members = .ok fields) :
    fields.map Prod.fst = members.map Prod.fst := by
  induction members generalizing names fields with
  | nil =>
    rw [compileFields] at h
    injection h with h
    exact h ▸ rfl
  | cons member rest ih =>
    obtain ⟨name, value⟩ := member
    obtain ⟨node, others, rfl, -, hrest⟩ := compileFields_cons h
    rw [List.map_cons, List.map_cons, ih hrest]

theorem exists_of_compileFields {members : Members} {names : List String}
    {fields : List (String × Node)} (h : compileFields path names members = .ok fields) :
    ∀ field ∈ fields, ∃ member ∈ members, ∃ path declared,
      compileAt path declared member.2 = .ok field.2 := by
  induction members generalizing names fields with
  | nil =>
    rw [compileFields] at h
    injection h with h
    exact h ▸ List.forall_mem_nil _
  | cons member rest ih =>
    obtain ⟨name, value⟩ := member
    obtain ⟨node, others, rfl, hvalue, hrest⟩ := compileFields_cons h
    refine List.forall_mem_cons.mpr ⟨⟨_, List.mem_cons_self, _, _, hvalue⟩, ?_⟩
    intro field hfield
    obtain ⟨source, hsource, hcompile⟩ := ih hrest field hfield
    exact ⟨source, List.mem_cons_of_mem _ hsource, hcompile⟩

/-- A description in which no object repeats a name compiles to structs with different names. -/
theorem distinctNames_of_compileAt (distinct : description.DistinctKeys)
    (h : compileAt path declared description = .ok node) : node.DistinctNames := by
  induction description generalizing path declared node with
  | array items ih =>
    cases distinct with
    | array distinct =>
      cases compiles_of_compileAt h with
      | array reads below =>
        have hdistinct := distinct _ List.mem_cons_self
        exact .array trivial (ih _ List.mem_cons_self hdistinct below)
      | branch below =>
        refine .branch trivial ?_
        intro node hnode
        obtain ⟨item, hitem, path, hcompile⟩ := exists_of_compileItems below node hnode
        exact ih item hitem (distinct item hitem) hcompile
  | object members ih =>
    cases distinct with
    | object names distinct =>
      cases compiles_of_compileAt h with
      | struct below =>
        rename_i fields
        refine .struct ?_ ?_
        · change (fields.map Prod.fst).Nodup
          rw [names_of_compileFields below]
          exact names
        · intro field hfield
          obtain ⟨member, hmember, path, declared, hcompile⟩ :=
            exists_of_compileFields below field hfield
          exact ih member hmember (distinct member hmember) hcompile
  | string s =>
    cases compiles_of_compileAt h
    exact .leaf trivial
  | _ => cases compiles_of_compileAt h

theorem allScopedIn_of_forall {nodes : List Node} (each : ∀ node ∈ nodes, node.ScopedIn declared) :
    AllScopedIn declared nodes := by
  induction nodes with
  | nil => trivial
  | cons node rest ih =>
    obtain ⟨hnode, hrest⟩ := List.forall_mem_cons.mp each
    exact ⟨hnode, ih hrest⟩

/-- A field reads the fields before it. -/
theorem FieldsScopedIn.scopedIn {declared : List String} {before behind : List (String × Node)}
    {name : String} {node : Node}
    (h : FieldsScopedIn declared (before ++ (name, node) :: behind)) :
    node.ScopedIn (some (declared ++ before.map Prod.fst)) := by
  induction before generalizing declared with
  | nil =>
    rw [List.map_nil, List.append_nil]
    exact h.1
  | cons field before ih =>
    have hrest := ih h.2
    rwa [List.append_assoc] at hrest

/-- Fields read those before them if what they compile from does. -/
theorem fieldsScopedIn_of_compileFields {members : Members} {names : List String}
    {fields : List (String × Node)}
    (each : ∀ member ∈ members, ∀ path declared node,
      compileAt path declared member.2 = .ok node → node.ScopedIn declared)
    (h : compileFields path names members = .ok fields) : FieldsScopedIn names fields := by
  induction members generalizing names fields with
  | nil =>
    rw [compileFields] at h
    injection h with h
    exact h ▸ trivial
  | cons member rest ih =>
    obtain ⟨name, value⟩ := member
    obtain ⟨hvalue, hrest⟩ := List.forall_mem_cons.mp each
    obtain ⟨node, others, rfl, hnode, hothers⟩ := compileFields_cons h
    exact ⟨hvalue _ _ _ hnode, ih hrest hothers⟩

/-- The lengths of a schema that compiles read declared fields only. -/
theorem scopedIn_of_compileAt (h : compileAt path declared description = .ok node) :
    node.ScopedIn declared := by
  induction description generalizing path declared node with
  | array items ih =>
    cases compiles_of_compileAt h with
    | array reads below => exact ⟨reads, ih _ List.mem_cons_self below⟩
    | branch below =>
      refine allScopedIn_of_forall fun node hnode => ?_
      obtain ⟨item, hitem, path, hcompile⟩ := exists_of_compileItems below node hnode
      exact ih item hitem hcompile
  | object members ih =>
    cases compiles_of_compileAt h with
    | struct below =>
      refine fieldsScopedIn_of_compileFields (fun member hmember path names node hcompile => ?_)
        below
      exact ih member hmember hcompile
  | string s =>
    cases compiles_of_compileAt h
    trivial
  | _ => cases compiles_of_compileAt h

/-- The fields of every struct of a compiled schema have different names. -/
theorem distinctNames_of_compile (distinct : description.DistinctKeys)
    (h : compile description = .ok node) : node.DistinctNames :=
  distinctNames_of_compileAt distinct h

/-- A schema that compiles from a text compiles from a description in which no object repeats a
name. -/
theorem exists_description_of_compileText {text : String} (h : compileText text = .ok node) :
    ∃ description : Json, description.DistinctKeys ∧ compile description = .ok node := by
  unfold compileText compileRead at h
  split at h
  · rename_i description hparse
    refine ⟨description, Json.parse_distinctKeys hparse, ?_⟩
    cases hcompile : compile description with
    | error cause =>
      rw [hcompile] at h
      cases h
    | ok other =>
      rw [hcompile] at h
      injection h with h
      rw [h]
  · cases h
  · cases h

/-- The lengths of a compiled schema read only fields that stand before them. -/
theorem scopedIn_of_compile (h : compile description = .ok node) : node.ScopedIn none :=
  scopedIn_of_compileAt h

end Node

end ByteRecord
