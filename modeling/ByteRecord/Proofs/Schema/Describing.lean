import ByteRecord.Proofs.Length.Plain
import ByteRecord.Proofs.Schema.Compiled
import ByteRecord.Proofs.Tag.Rereading

/-!
# Descriptions that compile again

The description of a schema is made of written tags and written lengths, each of which reads back.
Whether a list of two is an array or a branch is decided by its second item, though, and writing may
change what this item is taken for: the written form of a tag may be the name of a declared field, and
that of an expression may be a tag. `Node.Recompiles` says that neither happens. Then, and only then,
the description compiles to the schema with plain lengths, which decodes what the schema does.
-/

namespace ByteRecord

namespace Node

/-- What reading a description makes of the node itself: the reference of a tag is of the kind of the
values, a length is one that can be read, and a branch has at least two alternatives. -/
def PartWellFormed : Node → Prop
  | leaf tag => tag.WellTyped
  | array _ length => length.WellFormed
  | branch alternatives => 2 ≤ alternatives.length
  | struct _ => True

/-- The reference of the node is no floating-point number beyond the finite ones, if it is a leaf. -/
def ReferenceFinite : Node → Prop
  | leaf tag => tag.FiniteReference
  | _ => True

/-- A schema as it is read from a description. -/
abbrev WellFormed (node : Node) : Prop := node.All PartWellFormed

/-- All floating-point references in the schema are finite. -/
abbrev FiniteReferences (node : Node) : Prop := node.All ReferenceFinite

/-- The second of two alternatives is a tag that is written like the name of a declared field, so the
two are taken for an element and a length. -/
def TakenForArray [RealPrinter] (declared : Declared) (alternatives : List Node) : Prop :=
  ∃ first tag, alternatives = [first, leaf tag] ∧ declared.has tag.text = true

end Node

/-- The length is an expression that is written like a tag and unlike every declared field, so an
element and the length are taken for two alternatives. -/
def Length.TakenForTag (declared : Declared) (length : Length) : Prop :=
  ∃ terms, length = expression terms ∧ Tag.isTag length.text = true
    ∧ declared.has length.text = false

namespace Node

mutual

/-- No list in the description of the node is taken for one of the other kind. -/
def Recompiles [RealPrinter] (declared : Declared) : Node → Prop
  | leaf _ => True
  | array element length => ¬ length.TakenForTag declared ∧ Recompiles declared element
  | branch alternatives =>
    ¬ TakenForArray declared alternatives ∧ AllRecompile declared alternatives
  | struct fields => FieldsRecompile [] fields

/-- No list in the descriptions of the nodes is taken for one of the other kind. -/
def AllRecompile [RealPrinter] (declared : Declared) : List Node → Prop
  | [] => True
  | node :: rest => Recompiles declared node ∧ AllRecompile declared rest

/-- No list in the descriptions of the fields behind those that are declared already is taken for one
of the other kind. -/
def FieldsRecompile [RealPrinter] (declared : List String) : List (String × Node) → Prop
  | [] => True
  | (name, node) :: rest =>
    Recompiles (some declared) node ∧ FieldsRecompile (declared ++ [name]) rest

end

variable {path : Path} {declared : Declared} {description : Json} {node : Node}

theorem length_of_compileItems {items : List Json} {nodes : List Node} {index : Nat}
    (h : compileItems path declared index items = .ok nodes) : nodes.length = items.length := by
  induction items generalizing index nodes with
  | nil =>
    rw [compileItems] at h
    injection h with h
    exact h ▸ rfl
  | cons item rest ih =>
    rw [compileItems] at h
    obtain ⟨first, -, h⟩ := bind_eq_ok_iff.mp h
    obtain ⟨others, hrest, h⟩ := bind_eq_ok_iff.mp h
    injection h with h
    rw [← h, List.length_cons, List.length_cons, ih hrest]

/-- What compiles is well-formed. -/
theorem wellFormed_of_compileAt (h : compileAt path declared description = .ok node) :
    node.WellFormed := by
  induction description generalizing path declared node with
  | string s =>
    cases compiles_of_compileAt h with
    | leaf parses => exact .leaf (Tag.wellTyped_of_parse parses)
  | array items ih =>
    cases compiles_of_compileAt h with
    | array reads below spells =>
      exact .array (Length.wellFormed_of_ofJson spells) (ih _ List.mem_cons_self below)
    | branch below several =>
      refine .branch ?_ fun node hnode => ?_
      · rw [PartWellFormed, length_of_compileItems below]
        exact several
      · obtain ⟨item, hitem, path, hcompile⟩ := exists_of_compileItems below node hnode
        exact ih item hitem hcompile
  | object members ih =>
    cases compiles_of_compileAt h with
    | struct below =>
      refine .struct trivial fun field hfield => ?_
      obtain ⟨member, hmember, path, declared, hcompile⟩ :=
        exists_of_compileFields below field hfield
      exact ih member hmember hcompile
  | _ => cases compiles_of_compileAt h

theorem scopedIn_of_allScopedIn {nodes : List Node} (h : AllScopedIn declared nodes) :
    ∀ node ∈ nodes, node.ScopedIn declared := by
  induction nodes with
  | nil => exact List.forall_mem_nil _
  | cons node rest ih => exact List.forall_mem_cons.mpr ⟨h.1, ih h.2⟩

/-- A written length that reads declared fields only is a length again, unless it is taken for a
tag. -/
theorem isLength_toJson_iff {length : Length}
    (reads : ∀ name ∈ length.fields, declared.has name = true) :
    declared.isLength length.toJson = true ↔ ¬ length.TakenForTag declared := by
  cases length with
  | field name =>
    have hname : declared.has (Length.field name).text = true := by
      have htext : (Length.field name).text = name := String.ofList_toList
      rw [htext]
      exact reads name List.mem_cons_self
    have hlength : (!Tag.isTag (Length.field name).text || declared.has (Length.field name).text)
        = true := by
      rw [hname, Bool.or_true]
    refine iff_of_true hlength fun htaken => ?_
    obtain ⟨terms, hterms, -⟩ := htaken
    cases hterms
  | expression terms =>
    have htext : declared.isLength (Length.expression terms).toJson
        = (!Tag.isTag (Length.expression terms).text
          || declared.has (Length.expression terms).text) := rfl
    rw [htext]
    constructor
    · intro h htaken
      obtain ⟨-, -, htag, hname⟩ := htaken
      rw [htag, hname] at h
      cases h
    · intro h
      cases htag : Tag.isTag (Length.expression terms).text with
      | false => rfl
      | true =>
        cases hname : declared.has (Length.expression terms).text with
        | false => exact absurd ⟨terms, rfl, htag, hname⟩ h
        | true => rfl
  | _ =>
    refine iff_of_true rfl fun htaken => ?_
    obtain ⟨terms, hterms, -⟩ := htaken
    cases hterms

section Written

variable [printer : RealPrinter]

/-- The descriptions of some nodes compile if each does. -/
theorem compileItems_describeAll_iff {nodes : List Node}
    (each : ∀ node ∈ nodes, ∀ path, compileAt path declared node.describe = .ok node.plain ↔
      node.Recompiles declared) (index : Nat) :
    compileItems path declared index (describeAll nodes) = .ok (mapLengthsAll Length.plain nodes) ↔
      AllRecompile declared nodes := by
  induction nodes generalizing index with
  | nil => simp only [describeAll, compileItems, mapLengthsAll, AllRecompile]
  | cons node rest ih =>
    obtain ⟨hnode, hrest⟩ := List.forall_mem_cons.mp each
    rw [describeAll, compileItems, mapLengthsAll, AllRecompile, ← hnode (path.item index),
      ← ih hrest (index + 1)]
    constructor
    · intro h
      obtain ⟨first, hfirst, h⟩ := bind_eq_ok_iff.mp h
      obtain ⟨others, hothers, h⟩ := bind_eq_ok_iff.mp h
      injection h with h
      obtain ⟨rfl, rfl⟩ := List.cons.inj h
      exact ⟨hfirst, hothers⟩
    · intro h
      rw [h.1, h.2]
      rfl

/-- The descriptions of some fields compile if each does with those before it declared. -/
theorem compileFields_describeFields_iff {fields : List (String × Node)} {names : List String}
    (each : ∀ field ∈ fields, ∀ path declared, field.2.ScopedIn declared →
      (compileAt path declared field.2.describe = .ok field.2.plain ↔ field.2.Recompiles declared))
    (inScope : FieldsScopedIn names fields) :
    compileFields path names (describeFields fields)
        = .ok (mapLengthsFields Length.plain fields) ↔
      FieldsRecompile names fields := by
  induction fields generalizing names with
  | nil => simp only [describeFields, compileFields, mapLengthsFields, FieldsRecompile]
  | cons field rest ih =>
    obtain ⟨name, node⟩ := field
    obtain ⟨hnode, hrest⟩ := List.forall_mem_cons.mp each
    obtain ⟨hscoped, hothers⟩ := inScope
    rw [describeFields, compileFields, mapLengthsFields, FieldsRecompile,
      ← hnode (path.field name) (some names) hscoped, ← ih hrest hothers]
    constructor
    · intro h
      obtain ⟨first, hfirst, h⟩ := bind_eq_ok_iff.mp h
      obtain ⟨others, hothers, h⟩ := bind_eq_ok_iff.mp h
      injection h with h
      obtain ⟨hpair, rfl⟩ := List.cons.inj h
      rw [(Prod.mk.inj hpair).2] at hfirst
      exact ⟨hfirst, hothers⟩
    · intro h
      rw [h.1, h.2]
      rfl

/-- Of the nodes, only a tag that is written like a declared field is taken for a length. -/
theorem isLength_describe_iff (library : printer.ReadsBack) (formed : node.WellFormed)
    (finite : node.FiniteReferences) :
    declared.isLength node.describe = true ↔
      ∃ tag, node = leaf tag ∧ declared.has tag.text = true := by
  cases node with
  | leaf tag =>
    have htag : Tag.isTag tag.text = true := by
      rw [Tag.isTag, Tag.parse_text library formed.here finite.here]
      rfl
    rw [describe, Declared.isLength, htag, Bool.not_true, Bool.false_or]
    constructor
    · intro h
      exact ⟨tag, rfl, h⟩
    · intro h
      obtain ⟨other, hother, hname⟩ := h
      rwa [leaf.inj hother]
  | _ =>
    refine iff_of_false (fun h => ?_) fun h => ?_
    · cases h
    · obtain ⟨tag, htag, -⟩ := h
      cases htag

/-- The description of an array compiles if its length is not taken for a tag and its element
compiles. -/
theorem compileAt_array_iff {element : Node} {length : Length} (formed : length.WellFormed)
    (reads : ∀ name ∈ length.fields, declared.has name = true)
    (below : compileAt path.element declared element.describe = .ok element.plain ↔
      element.Recompiles declared) :
    compileAt path declared (array element length).describe = .ok (array element length).plain ↔
      (array element length).Recompiles declared := by
  have hlength : declared.readLength length.toJson = .ok length.plain :=
    readLength_eq_ok_iff.mpr ⟨Length.ofJson_toJson formed, by rwa [Length.fields_plain]⟩
  rw [describe, compileAt, Recompiles, ← below, ← isLength_toJson_iff reads]
  by_cases hcounts : declared.isLength length.toJson = true
  · rw [if_pos hcounts, hlength]
    constructor
    · intro h
      obtain ⟨other, hother, h⟩ := bind_eq_ok_iff.mp h
      obtain ⟨node, hnode, h⟩ := bind_eq_ok_iff.mp h
      injection h with h
      rw [(array.inj h).1] at hnode
      exact ⟨hcounts, hnode⟩
    · intro h
      rw [h.2]
      rfl
  · -- Taken for a branch, the list compiles to no array.
    rw [if_neg hcounts]
    constructor
    · intro h
      obtain ⟨nodes, -, h⟩ := map_eq_ok_iff.mp h
      cases h
    · intro h
      exact absurd h.1 hcounts

/-- The description of a branch compiles if it is not taken for an array and its alternatives
compile. -/
theorem compileAt_branch_iff {alternatives : List Node} (several : 2 ≤ alternatives.length)
    (counts : ∀ node ∈ alternatives, declared.isLength node.describe = true ↔
      ∃ tag, node = leaf tag ∧ declared.has tag.text = true)
    (below : compileItems path declared 0 (describeAll alternatives)
        = .ok (mapLengthsAll Length.plain alternatives) ↔ AllRecompile declared alternatives) :
    compileAt path declared (branch alternatives).describe = .ok (branch alternatives).plain ↔
      (branch alternatives).Recompiles declared := by
  have hitems : (compileItems path declared 0 (describeAll alternatives)).map branch
      = .ok (branch alternatives).plain ↔ AllRecompile declared alternatives := by
    rw [← below, map_eq_ok_iff]
    constructor
    · intro h
      obtain ⟨nodes, hnodes, h⟩ := h
      rwa [branch.inj h] at hnodes
    · intro h
      exact ⟨_, h, rfl⟩
  obtain ⟨first, second, rest, rfl⟩ : ∃ first second rest, alternatives = first :: second :: rest := by
    rcases alternatives with _ | ⟨first, _ | ⟨second, rest⟩⟩
    · cases several
    · exact absurd several (Nat.not_succ_le_self 1)
    · exact ⟨first, second, rest, rfl⟩
  rw [describe, Recompiles]
  cases rest with
  | nil =>
    have hsecond := counts second (List.mem_cons_of_mem _ List.mem_cons_self)
    rw [describeAll, describeAll, describeAll] at hitems ⊢
    rw [compileAt]
    by_cases hcounts : declared.isLength second.describe = true
    · -- Taken for an array, the list compiles to no branch.
      obtain ⟨tag, rfl, hname⟩ := hsecond.mp hcounts
      rw [if_pos hcounts]
      constructor
      · intro h
        obtain ⟨length, -, h⟩ := bind_eq_ok_iff.mp h
        obtain ⟨node, -, h⟩ := bind_eq_ok_iff.mp h
        cases h
      · intro h
        exact absurd ⟨first, tag, rfl, hname⟩ h.1
    · rw [if_neg hcounts, hitems]
      refine (and_iff_right fun htaken => ?_).symm
      obtain ⟨_, tag, hpair, hname⟩ := htaken
      cases hpair
      exact hcounts (hsecond.mpr ⟨tag, rfl, hname⟩)
  | cons third rest =>
    -- A list of more than two is a branch whatever its items are.
    have hfree : ¬ TakenForArray declared (first :: second :: third :: rest) := fun htaken => by
      obtain ⟨_, tag, hpair, -⟩ := htaken
      cases hpair
    rw [describeAll, describeAll, describeAll] at hitems ⊢
    rw [compileAt, hitems]
    · exact (and_iff_right hfree).symm
    · intro hnil
      cases hnil

/-- The description of a schema that was read compiles to the schema with plain lengths exactly if no
list in it is taken for the other kind. -/
theorem compileAt_describe_iff (library : printer.ReadsBack) (formed : node.WellFormed)
    (finite : node.FiniteReferences) (inScope : node.ScopedIn declared) :
    compileAt path declared node.describe = .ok node.plain ↔ node.Recompiles declared := by
  -- What is declared grows within a struct, so the statement is for all declared fields.
  induction node generalizing path declared with
  | leaf tag =>
    have hparse := Tag.parse_text library formed.here finite.here
    simp only [describe, compileAt, hparse, Recompiles, iff_true]
    rfl
  | array element length ih =>
    exact compileAt_array_iff formed.here inScope.1 (ih formed.element finite.element inScope.2)
  | branch alternatives ih =>
    have hcounts : ∀ node ∈ alternatives, declared.isLength node.describe = true ↔ _ :=
      fun node hnode =>
        isLength_describe_iff library (formed.alternative hnode) (finite.alternative hnode)
    refine compileAt_branch_iff formed.here hcounts
      (compileItems_describeAll_iff (fun node hnode path => ?_) 0)
    exact ih node hnode (formed.alternative hnode) (finite.alternative hnode)
      (scopedIn_of_allScopedIn inScope node hnode)
  | struct fields ih =>
    have hfields : compileFields path [] (describeFields fields) = _ ↔ _ :=
      compileFields_describeFields_iff (fun field hfield path declared hscoped =>
        ih field hfield (formed.field hfield) (finite.field hfield) hscoped) inScope
    rw [describe, compileAt, Recompiles, ← hfields, map_eq_ok_iff]
    constructor
    · intro h
      obtain ⟨nodes, hnodes, h⟩ := h
      rwa [struct.inj h] at hnodes
    · intro h
      exact ⟨_, h, rfl⟩

/-- The description of a schema with finite references compiles to the schema with plain lengths exactly
if no list in it is taken for the other kind, and that schema decodes every record as the described one
does. This holds whatever numerals the printer chooses, as long as they read back; which lists are taken
for the other kind may depend on them. -/
theorem compile_describe_iff (library : printer.ReadsBack)
    (compiled : compile description = .ok node) (finite : node.FiniteReferences) :
    (compile node.describe = .ok node.plain ↔ node.Recompiles none)
      ∧ ∀ options bytes, SameKind (node.decodeRecord options bytes).1
          (node.plain.decodeRecord options bytes).1 :=
  ⟨compileAt_describe_iff library (wellFormed_of_compileAt compiled) finite
      (scopedIn_of_compile compiled),
    node.decodeRecord_plain⟩

end Written

/-- A branch with a reference of each kind, an array whose length loses its sign, and one whose length
is written without spaces. -/
def mixedDescription : Json :=
  .object [("kind", .array [.string "float64=0.5", .string "int16:003!=-02"]),
    ("n", .string "uint8"),
    ("xs", .array [.string "uint8le:2", .string "+n"]),
    ("texts", .array [.string "cstring=a=b", .string "2 * n - 1"])]

/-- The number one half as a reference. -/
def halfTag : Tag := .scalar ⟨.float64, .big, 0, some ⟨.real ⟨0x3fe0000000000000⟩, false⟩⟩

/-- The schema of that description. -/
def mixedNode : Node :=
  struct [("kind", branch [leaf halfTag,
      leaf (.scalar ⟨.int16, .big, 3, some ⟨.integer (-2), true⟩⟩)]),
    ("n", leaf (.scalar ⟨.uint8, .big, 0, none⟩)),
    ("xs", array (leaf (.scalar ⟨.uint8, .little, 2, none⟩)) (.expression [⟨.add, .field "n"⟩])),
    ("texts", array (leaf (.cstring ⟨0, some ⟨"a=b", false⟩⟩))
      (.expression [⟨.add, .count 2⟩, ⟨.multiply, .field "n"⟩, ⟨.subtract, .count 1⟩]))]

theorem compile_mixedDescription : compile mixedDescription = .ok mixedNode := by
  have htext : @Tag.text .shortest halfTag = "float64=0.5" := by decide +kernel
  have hhalf : Tag.parse (@Tag.text .shortest halfTag) = .ok halfTag :=
    @Tag.parse_text _ .shortest RealPrinter.readsBack_shortest rfl rfl
  rw [htext] at hhalf
  unfold compile mixedDescription
  simp only [compileAt, compileFields, compileItems, hhalf]
  rfl

theorem finiteReferences_mixedNode : mixedNode.FiniteReferences := by
  refine .struct trivial ?_
  simp only [List.forall_mem_cons]
  refine ⟨.branch trivial ?_, .leaf rfl, .array trivial (.leaf rfl),
    .array trivial (.leaf trivial), List.forall_mem_nil _⟩
  simp only [List.forall_mem_cons]
  exact ⟨.leaf rfl, .leaf rfl, List.forall_mem_nil _⟩

/-- Its description compiles, to a length without a sign, and decodes the same. -/
theorem compile_describe_mixed :
    compile (@describe .shortest mixedNode) = .ok mixedNode.plain
      ∧ ∀ options bytes, SameKind (mixedNode.decodeRecord options bytes).1
          (mixedNode.plain.decodeRecord options bytes).1 := by
  obtain ⟨hcompile, hdecode⟩ :=
    @compile_describe_iff _ _ .shortest RealPrinter.readsBack_shortest compile_mixedDescription
      finiteReferences_mixedNode
  refine ⟨hcompile.mpr ?_, hdecode⟩
  refine ⟨⟨?_, trivial, trivial, trivial⟩, trivial, ⟨?_, trivial⟩, ⟨?_, trivial⟩, trivial⟩
  · intro htaken
    obtain ⟨first, tag, hpair, hname⟩ := htaken
    cases hpair
    cases hname
  · intro htaken
    obtain ⟨terms, hterms, -, hname⟩ := htaken
    cases hterms
    revert hname
    decide +kernel
  · intro htaken
    obtain ⟨terms, hterms, htag, -⟩ := htaken
    cases hterms
    revert htag
    decide +kernel

/-- A field and an alternative that is written like it. -/
def overlapDescription : Json :=
  .object [("uint8", .string "uint8"), ("x", .array [.string "uint16=1", .string "uint8:0"])]

/-- The schema of that description. -/
def overlapNode : Node :=
  struct [("uint8", leaf (.scalar ⟨.uint8, .big, 0, none⟩)),
    ("x", branch [leaf (.scalar ⟨.uint16, .big, 0, some ⟨.integer 1, false⟩⟩),
      leaf (.scalar ⟨.uint8, .big, 0, none⟩)])]

/-- The schema that its description compiles to. -/
def overlapArray : Node :=
  struct [("uint8", leaf (.scalar ⟨.uint8, .big, 0, none⟩)),
    ("x", array (leaf (.scalar ⟨.uint16, .big, 0, some ⟨.integer 1, false⟩⟩)) (.field "uint8"))]

/-- Whatever the printer, the two alternatives are taken for an array: a record that the schema decodes is
none of the schema that its description compiles to. -/
theorem compile_describe_overlap :
    compile overlapDescription = .ok overlapNode ∧ overlapNode.FiniteReferences
      ∧ (∀ printer, compile (@describe printer overlapNode) = .ok overlapArray)
      ∧ (overlapNode.decodeRecord ⟨0, false, ""⟩ [2, 5, 6]).1
        = .ok ⟨some (.object [("uint8", .number (.unsigned 2)), ("x", .number (.unsigned 5))]),
          2, 2⟩
      ∧ (overlapArray.decodeRecord ⟨0, false, ""⟩ [2, 5, 6]).1 = .ok ⟨none, 0, 0⟩ := by
  have hdescribe : ∀ printer, @describe printer overlapNode = .object [("uint8", .string "uint8"),
      ("x", .array [.string "uint16=1", .string "uint8"])] := fun _ => rfl
  refine ⟨rfl, .struct trivial ?_, fun printer => ?_, eq_ok_of_toOption (by decide +kernel),
    eq_ok_of_toOption (by decide +kernel)⟩
  · simp only [List.forall_mem_cons]
    refine ⟨.leaf rfl, .branch trivial ?_, List.forall_mem_nil _⟩
    simp only [List.forall_mem_cons]
    exact ⟨.leaf rfl, .leaf rfl, List.forall_mem_nil _⟩
  · rw [hdescribe printer]
    rfl

end Node

end ByteRecord
