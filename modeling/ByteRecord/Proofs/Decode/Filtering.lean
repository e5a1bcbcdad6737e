import ByteRecord.Proofs.Decode.Counting
import ByteRecord.Proofs.Decode.Record
import ByteRecord.Proofs.Length.Lookup
import ByteRecord.Proofs.Record.Slots
import ByteRecord.Proofs.Record.Conformance
import ByteRecord.Proofs.Scalar.Comparing
import ByteRecord.Proofs.Schema.Describing

/-!
# References that only filter

A reference decides whether a record matches, and nothing else: the bytes that a slot takes and the
value that they give are the same without it. `Outcome.Filters` compares decoding with a demand and
decoding without it, and goes through every way of combining outcomes, so that a demand deep in a
record settles the match of everything around it. Without their references some arrays are read in
one go that are otherwise read one by one, which gives the same records.
-/

namespace ByteRecord

/-- The tag without its reference. -/
def Tag.undemanding : Tag → Tag
  | scalar tag => scalar { tag with constraint := none }
  | string tag => string { tag with constraint := none }
  | cstring tag => cstring { tag with constraint := none }

namespace Node

mutual

/-- The schema without its references. -/
def undemanding : Node → Node
  | leaf tag => leaf tag.undemanding
  | array element length => array (undemanding element) length
  | branch alternatives => branch (undemandingAll alternatives)
  | struct fields => struct (undemandingFields fields)

/-- The alternatives without their references. -/
def undemandingAll : List Node → List Node
  | [] => []
  | node :: rest => undemanding node :: undemandingAll rest

/-- The fields without their references. -/
def undemandingFields : List (String × Node) → List (String × Node)
  | [] => []
  | (name, node) :: rest => (name, undemanding node) :: undemandingFields rest

end

/-- The node does not run to the end of the data, if it is an array. -/
def NotToEnd : Node → Prop
  | array _ .remainder => False
  | _ => True

/-- No array in the schema runs to the end of the data. -/
abbrev Counted (node : Node) : Prop := node.All NotToEnd

end Node

/-- The value of a slot satisfies the reference of its tag, if the tag has one: a number by its
exact value, a text as it is. A negated reference is satisfied by any other value. -/
inductive Slot.Satisfied : Slot → Prop
  /-- A number. -/
  | scalar {tag : ScalarTag} {n : Number}
      (demand : ∀ demand, tag.constraint = some demand → demand.Met (demand.value.Equal n)) :
      Satisfied ⟨.scalar tag, .number n⟩
  /-- A text of fixed width. -/
  | string {tag : TextTag} {s : String}
      (demand : ∀ demand, tag.constraint = some demand → demand.Met (s = demand.value)) :
      Satisfied ⟨.string tag, .string s⟩
  /-- A text that a zero byte ends. -/
  | cstring {tag : TextTag} {s : String}
      (demand : ∀ demand, tag.constraint = some demand → demand.Met (s = demand.value)) :
      Satisfied ⟨.cstring tag, .string s⟩

/-- Every value of the record satisfies the reference of its slot. -/
def Node.Satisfied (node : Node) (record : Json) : Prop :=
  ∀ slot ∈ node.slots record, slot.Satisfied

/-- An outcome matches as another one does, but only with values that have a property. With other
values there is no match. -/
structure Outcome.Filters {α : Type} (o free : Outcome α) (p : α → Prop) : Prop where
  /-- The matches are those of the other outcome whose values have the property. -/
  matches_iff (value : α) (next : Reader) : o.Matches value next ↔ free.Matches value next ∧ p value
  /-- Where the value does not have it, there is no match. -/
  noMatch (value : α) (next : Reader) : free.Matches value next → ¬ p value → o.verdict = .noMatch

namespace Outcome

variable {α β : Type} {o free other : Outcome α} {p : α → Prop} {q : β → Prop}
  {decode decodeFree : Reader → Outcome Json} {r : Reader}

namespace Filters

/-- An outcome whose values all have the property filters itself. -/
theorem refl (all : ∀ value next, o.Matches value next → p value) : Filters o o p :=
  ⟨fun value next => ⟨fun h => ⟨h, all value next h⟩, And.left⟩,
    fun value next h hp => absurd (all value next h) hp⟩

/-- Only the matches of the outcome that is filtered matter. -/
theorem congr (h : Filters o free p)
    (same : ∀ value next, other.Matches value next ↔ free.Matches value next) :
    Filters o other p :=
  ⟨fun value next => (h.matches_iff value next).trans (and_congr_left' (same value next).symm),
    fun value next hother => h.noMatch value next ((same value next).mp hother)⟩

/-- The property may be stated in another way. -/
theorem restate {p' : α → Prop} (h : Filters o free p) (same : ∀ value, p value ↔ p' value) :
    Filters o free p' :=
  ⟨fun value next => (h.matches_iff value next).trans (and_congr_right' (same value)),
    fun value next hfree hp => h.noMatch value next hfree (mt (same value).mp hp)⟩

theorem noting (h : Filters o free p) (event : Event) :
    Filters (o.noting event) (free.noting event) p := by
  refine ⟨fun value next => ?_, fun value next hfree hp => ?_⟩
  · rw [noting_matches_iff, noting_matches_iff]
    exact h.matches_iff value next
  · rw [noting_matches_iff] at hfree
    exact noting_noMatch_iff.mpr (h.noMatch value next hfree hp)

/-- A sequence is filtered by what filters its parts. -/
theorem andThen {f g : α → Reader → Outcome β} {t : α → β → Prop} (first : Filters o free p)
    (second : ∀ value mid, free.Matches value mid → Filters (f value mid) (g value mid) (t value))
    (whole : ∀ value mid result next, free.Matches value mid → (g value mid).Matches result next →
      (q result ↔ p value ∧ t value result)) :
    Filters (o.andThen f) (free.andThen g) q := by
  refine ⟨fun result next => ?_, fun result next hfree hq => ?_⟩
  · rw [andThen_matches_iff, andThen_matches_iff]
    constructor
    · rintro ⟨value, mid, hvalue, hresult⟩
      obtain ⟨hfirst, hp⟩ := (first.matches_iff value mid).mp hvalue
      obtain ⟨hsecond, hlater⟩ := ((second value mid hfirst).matches_iff result next).mp hresult
      exact ⟨⟨value, mid, hfirst, hsecond⟩,
        (whole value mid result next hfirst hsecond).mpr ⟨hp, hlater⟩⟩
    · rintro ⟨⟨value, mid, hfirst, hsecond⟩, hq⟩
      obtain ⟨hp, hlater⟩ := (whole value mid result next hfirst hsecond).mp hq
      exact ⟨value, mid, (first.matches_iff value mid).mpr ⟨hfirst, hp⟩,
        ((second value mid hfirst).matches_iff result next).mpr ⟨hsecond, hlater⟩⟩
  · obtain ⟨value, mid, hfirst, hsecond⟩ := andThen_matches_iff.mp hfree
    refine andThen_noMatch_iff.mpr ?_
    by_cases hp : p value
    · have hlater : ¬ t value result := fun hlater =>
        hq ((whole value mid result next hfirst hsecond).mpr ⟨hp, hlater⟩)
      exact Or.inr ⟨value, mid, (first.matches_iff value mid).mpr ⟨hfirst, hp⟩,
        (second value mid hfirst).noMatch result next hsecond hlater⟩
    · exact Or.inl (first.noMatch value mid hfirst hp)

/-- Changing the value changes nothing, if the property goes with it. -/
theorem map (h : Filters o free p) {f : α → β}
    (same : ∀ value next, free.Matches value next → (q (f value) ↔ p value)) :
    Filters (o.map f) (free.map f) q := by
  refine h.andThen (t := fun _ _ => True) (fun value mid _ => refl fun _ _ _ => trivial) ?_
  intro value mid result next hvalue hresult
  obtain ⟨rfl, -⟩ := matched_matches_iff.mp hresult
  rw [same value mid hvalue, and_true]

/-- A demand filters what a demand that everything meets does not. -/
theorem demanding {admits always : α → Bool} {event quiet : α → Event}
    (met : ∀ value, always value = true)
    (decides : ∀ value next, o.Matches value next → (admits value = true ↔ p value)) :
    Filters (o.demanding admits event) (o.demanding always quiet) p := by
  refine ⟨fun value next => ?_, fun value next hfree hp => ?_⟩
  · rw [demanding_matches_iff, demanding_matches_iff]
    constructor
    · rintro ⟨h, hadmits⟩
      exact ⟨⟨h, met value⟩, (decides value next h).mp hadmits⟩
    · rintro ⟨⟨h, -⟩, hp⟩
      exact ⟨h, (decides value next h).mpr hp⟩
  · obtain ⟨h, -⟩ := demanding_matches_iff.mp hfree
    refine demanding_noMatch_iff.mpr (Or.inr ⟨value, next, h, ?_⟩)
    exact Bool.eq_false_iff.mpr fun hadmits => hp ((decides value next h).mp hadmits)

/-- Elements are filtered by what filters each of them. -/
theorem repeated {p : Json → Prop} (each : ∀ r, Filters (decode r) (decodeFree r) p)
    (total left : Nat) (r : Reader) :
    Filters (Outcome.repeated decode total left r) (Outcome.repeated decodeFree total left r)
      (fun items => ∀ item ∈ items, p item) := by
  induction left generalizing r with
  | zero =>
    refine refl fun items next h => ?_
    obtain ⟨rfl, -⟩ := matched_matches_iff.mp h
    exact List.forall_mem_nil p
  | succ left ih =>
    refine ((each r).noting _).andThen (t := fun _ items => ∀ item ∈ items.tail, p item) ?_ ?_
    · intro value mid _
      exact (ih mid).map fun items next _ => Iff.rfl
    · intro value mid items next _ hitems
      obtain ⟨rest, -, rfl⟩ := map_matches_iff.mp hitems
      exact List.forall_mem_cons

end Filters

end Outcome

variable {r : Reader} {scope : Scope}

/-- A read scalar is in the range of its type. -/
theorem ScalarTag.holds_of_skipping {tag : ScalarTag} {n : Number} {next : Reader}
    (h : (((Outcome.ofRead r (r.scalar tag.type tag.order)).map Scalar.toNumber).skipping
      tag.padding).Matches n next) : tag.type.Holds n := by
  obtain ⟨mid, -, hread, -, -⟩ := Outcome.skipping_matches_iff.mp h
  obtain ⟨value, hvalue, rfl⟩ := Outcome.map_matches_iff.mp hread
  obtain ⟨content, -, hwidth, rfl⟩ :=
    Reader.scalar_eq_ok_iff.mp (Outcome.ofRead_matches_iff.mp hvalue)
  exact ScalarType.holds_ofOctets tag.order hwidth

/-- What a slot satisfies is what its tag demands. -/
theorem Slot.satisfied_scalar_iff {tag : ScalarTag} {n : Number} :
    Slot.Satisfied ⟨.scalar tag, .number n⟩ ↔
      ∀ demand, tag.constraint = some demand → demand.Met (demand.value.Equal n) := by
  constructor
  · intro h
    cases h with
    | scalar demand => exact demand
  · exact .scalar

theorem Slot.satisfied_string_iff {tag : TextTag} {s : String} :
    Slot.Satisfied ⟨.string tag, .string s⟩ ↔
      ∀ demand, tag.constraint = some demand → demand.Met (s = demand.value) := by
  constructor
  · intro h
    cases h with
    | string demand => exact demand
  · exact .string

theorem Slot.satisfied_cstring_iff {tag : TextTag} {s : String} :
    Slot.Satisfied ⟨.cstring tag, .string s⟩ ↔
      ∀ demand, tag.constraint = some demand → demand.Met (s = demand.value) := by
  constructor
  · intro h
    cases h with
    | cstring demand => exact demand
  · exact .cstring

/-- The reference of a text only filters, however the text is read. -/
theorem TextTag.demanding_filters {tag : TextTag} {read : Outcome String}
    {event quiet : String → Event} :
    Outcome.Filters (read.demanding tag.admits event)
      (read.demanding ({ tag with constraint := none } : TextTag).admits quiet)
      (fun s => ∀ demand, tag.constraint = some demand → demand.Met (s = demand.value)) :=
  Outcome.Filters.demanding (fun _ => rfl) fun _ _ _ => TextTag.admits_iff

/-- The reference of a slot only filters. -/
theorem Tag.decode_filters {tag : Tag} (typed : tag.WellTyped) (r : Reader) :
    Outcome.Filters (tag.decode r) (tag.undemanding.decode r)
      (fun value => Slot.Satisfied ⟨tag, value⟩) := by
  cases tag with
  | scalar tag =>
    have hslot : Outcome.Filters (tag.decode r) ({ tag with constraint := none }.decode r)
        (fun n => Slot.Satisfied ⟨.scalar tag, .number n⟩) := by
      refine Outcome.Filters.demanding (fun _ => rfl) fun n next hread => ?_
      have hrange := ScalarTag.holds_of_skipping hread
      rw [ScalarTag.admits_iff typed hrange, Slot.satisfied_scalar_iff]
    exact hslot.map fun _ _ _ => Iff.rfl
  | string tag => exact TextTag.demanding_filters.map fun _ _ _ => Slot.satisfied_string_iff
  | cstring tag => exact TextTag.demanding_filters.map fun _ _ _ => Slot.satisfied_cstring_iff

namespace Node

variable {element : Node} {length : Length} {count : Nat} {tag : ScalarTag} {value : Json}
  {next : Reader}

theorem undemandingAll_eq_map (nodes : List Node) :
    undemandingAll nodes = nodes.map undemanding := by
  induction nodes with
  | nil => rfl
  | cons node rest ih => rw [undemandingAll, ih, List.map_cons]

theorem undemandingFields_eq_map (fields : List (String × Node)) :
    undemandingFields fields = fields.map fun field => (field.1, field.2.undemanding) := by
  induction fields with
  | nil => rfl
  | cons field rest ih => rw [undemandingFields, ih, List.map_cons]

/-- Elements that are read in one go have no reference. -/
theorem undemanding_of_plain (h : element.plainScalar? = some tag) :
    element.undemanding = element := by
  obtain ⟨rfl, -, hfree⟩ := plainScalar?_eq_some h
  rw [undemanding, Tag.undemanding, ← hfree]

/-- Only the rest of the data has no count. -/
theorem Counted.resolve_ne_none (h : (array element length).Counted) {remaining : Nat} :
    length.resolve scope remaining ≠ .ok none := by
  intro hnone
  obtain rfl := Length.eq_remainder_of_resolve hnone
  exact h.here

/-- A counted array matches as its elements do one by one. -/
theorem decode_counted_matches_repeated
    (hcount : length.resolve scope r.remaining = .ok (some count)) :
    ((array element length).decode scope r).Matches value next ↔
      ((Outcome.repeated (element.decode scope) count count r).map .array).Matches value next := by
  rw [decode_counted_matches_iff hcount, Outcome.map_matches_iff]
  refine exists_congr fun items => ?_
  rw [Outcome.repeated_matches_iff, eq_comm, and_comm]

/-- The values of an array satisfy their references if those of its items do. -/
theorem satisfied_array_iff {items : List Json} :
    (array element length).Satisfied (.array items) ↔ ∀ item ∈ items, element.Satisfied item :=
  List.forall_mem_flatMap

/-- References in a counted array only filter, if those of its elements do. -/
theorem decode_array_filters (counted : (array element length).Counted)
    (each : ∀ r, Outcome.Filters (element.decode scope r) (element.undemanding.decode scope r)
      element.Satisfied) :
    Outcome.Filters ((array element length).decode scope r)
      ((array element length).undemanding.decode scope r) (array element length).Satisfied := by
  rw [undemanding]
  cases hresolve : length.resolve scope r.remaining with
  | error cause =>
    rw [decode, decode, hresolve]
    refine Outcome.Filters.refl fun value next h => ?_
    cases h.1
  | ok count? =>
    cases count? with
    | none => exact absurd hresolve counted.resolve_ne_none
    | some count =>
      -- One by one, with and without references.
      have hrow : Outcome.Filters
          ((Outcome.repeated (element.decode scope) count count r).map .array)
          ((Outcome.repeated (element.undemanding.decode scope) count count r).map .array)
          (array element length).Satisfied :=
        (Outcome.Filters.repeated each count count r).map fun _ _ _ => satisfied_array_iff
      cases hplain : element.plainScalar? with
      | none =>
        rw [decode, hresolve]
        simp only [hplain]
        exact hrow.congr fun value next => decode_counted_matches_repeated hresolve
      | some tag =>
        rw [undemanding_of_plain hplain] at hrow ⊢
        refine Outcome.Filters.refl fun value next h => ?_
        have hitems := (decode_counted_matches_repeated hresolve).mp h
        exact ((hrow.matches_iff value next).mp hitems).2

/-- References in fields only filter, if those of each field do. -/
theorem decodeFields_filters {fields : List (String × Node)} {done : Members}
    (distinct : (done.map Prod.fst ++ fields.map Prod.fst).Nodup)
    (each : ∀ field ∈ fields, ∀ scope r, Outcome.Filters (field.2.decode scope r)
      (field.2.undemanding.decode scope r) field.2.Satisfied) (r : Reader) :
    Outcome.Filters (decodeFields done fields r) (decodeFields done (undemandingFields fields) r)
      (fun members => ∀ slot ∈ fieldSlots members fields, slot.Satisfied) := by
  induction fields generalizing done r with
  | nil => exact Outcome.Filters.refl fun _ _ _ => List.forall_mem_nil _
  | cons field rest ih =>
    obtain ⟨name, node⟩ := field
    obtain ⟨hnode, hrest⟩ := List.forall_mem_cons.mp each
    rw [undemandingFields, decodeFields, decodeFields]
    refine ((hnode (some done) r).noting _).andThen (fun value mid _ => ih ?_ hrest mid) ?_
    · rw [List.map_append]
      simpa using distinct
    · intro value mid members next _ hmembers
      obtain ⟨added, rfl, run⟩ := decodeFields_matches_iff.mp hmembers
      have hnames : added.map Prod.fst = rest.map Prod.fst := by
        rw [run.names_eq, undemandingFields_eq_map, List.map_map]
        rfl
      have hfind : (done ++ [(name, value)] ++ added).find? name = some value := by
        rw [List.append_assoc, List.singleton_append]
        refine Members.find?_of_nodup ?_
        rwa [List.map_append, List.map_cons, hnames]
      rw [fieldSlots_cons hfind, List.forall_mem_append]
      exact Iff.rfl

/-- The references of a schema without branches only filter, wherever it is decoded. -/
theorem decode_filters {node : Node} (formed : node.WellFormed) (distinct : node.DistinctNames)
    (branchFree : node.BranchFree) (counted : node.Counted) (scope : Scope) (r : Reader) :
    Outcome.Filters (node.decode scope r) (node.undemanding.decode scope r) node.Satisfied := by
  induction node generalizing scope r with
  | leaf tag =>
    rw [undemanding, decode, decode]
    refine (Tag.decode_filters formed.here r).restate fun value => ?_
    exact List.forall_mem_singleton.symm
  | array element length ih =>
    exact decode_array_filters counted
      (ih formed.element distinct.element branchFree.element counted.element scope)
  | branch alternatives ih => exact absurd branchFree BranchFree.not_branch
  | struct fields ih =>
    rw [undemanding, decode, decode]
    have hnames : (([] : Members).map Prod.fst ++ fields.map Prod.fst).Nodup := distinct.here
    have hfields := decodeFields_filters hnames (fun field hfield scope r =>
      ih field hfield (formed.field hfield) (distinct.field hfield) (branchFree.field hfield)
        (counted.field hfield) scope r) r
    exact hfields.map fun _ _ _ => Iff.rfl

/-- Without its references a schema demands nothing. -/
theorem demandFree_undemanding (node : Node) : node.undemanding.DemandFree := by
  induction node with
  | leaf tag =>
    rw [undemanding]
    exact .leaf (by cases tag <;> rfl)
  | array element length ih =>
    rw [undemanding]
    exact .array trivial ih
  | branch alternatives ih =>
    rw [undemanding, undemandingAll_eq_map]
    exact .branch trivial (List.forall_mem_map.mpr ih)
  | struct fields ih =>
    rw [undemanding, undemandingFields_eq_map]
    exact .struct trivial (List.forall_mem_map.mpr ih)

/-- References only filter. A record is decoded exactly if it is decoded without them and every
value in it satisfies the reference of its slot. Where a value does not, there is no match. -/
theorem decodeRecord_filters {description : Json} {node : Node}
    (distinct : description.DistinctKeys) (compiled : compile description = .ok node)
    (branchFree : node.BranchFree) (counted : node.Counted) (options : DecodeOptions)
    (bytes : List UInt8) (record : Json) (stop consumed : Nat) :
    ((node.decodeRecord options bytes).1 = .ok ⟨some record, stop, consumed⟩ ↔
        (node.undemanding.decodeRecord options bytes).1 = .ok ⟨some record, stop, consumed⟩
          ∧ node.Satisfied record)
      ∧ ((node.undemanding.decodeRecord options bytes).1 = .ok ⟨some record, stop, consumed⟩ →
        ¬ node.Satisfied record →
          (node.decodeRecord options bytes).1 = .ok (.none options.offset)) := by
  have hfilters := decode_filters (wellFormed_of_compileAt compiled)
    (distinctNames_of_compile distinct compiled) branchFree counted none
    ((Reader.ofBytes bytes).advance options.offset)
  constructor
  · simp only [decodeRecord_eq_ok_some_iff, hfilters.matches_iff]
    constructor
    · rintro ⟨hoffset, next, ⟨hmatch, hsatisfied⟩, hends⟩
      exact ⟨⟨hoffset, next, hmatch, hends⟩, hsatisfied⟩
    · rintro ⟨⟨hoffset, next, hmatch, hends⟩, hsatisfied⟩
      exact ⟨hoffset, next, ⟨hmatch, hsatisfied⟩, hends⟩
  · intro hfree hrefused
    obtain ⟨hoffset, next, hmatch, -⟩ := decodeRecord_eq_ok_some_iff.mp hfree
    have hverdict := hfilters.noMatch record next hmatch hrefused
    rw [decodeRecord, if_neg (Nat.not_lt_of_le hoffset)]
    simp only [hverdict]

/-- Describes rows with a reference to a number and one to a text, behind a number that must differ
from a reference, and two numbers that must equal one. -/
def markedDescription : Json :=
  .object [("kind", .string "int8!=-1"), ("n", .string "uint8"),
    ("rows", .array [.object [("id", .string "int16le=0x102"), ("name", .string "cstring=a=b")],
      .string "n"]),
    ("xs", .array [.string "uint8=7", .number (.unsigned 2)])]

/-- The schema of a row. -/
def markedRow : Node :=
  struct [("id", leaf (.scalar ⟨.int16, .little, 0, some ⟨.integer 258, false⟩⟩)),
    ("name", leaf (.cstring ⟨0, some ⟨"a=b", false⟩⟩))]

/-- The schema of that description. -/
def markedNode : Node :=
  struct [("kind", leaf (.scalar ⟨.int8, .big, 0, some ⟨.integer (-1), true⟩⟩)),
    ("n", leaf (.scalar ⟨.uint8, .big, 0, none⟩)), ("rows", array markedRow (.field "n")),
    ("xs", array (leaf (.scalar ⟨.uint8, .big, 0, some ⟨.integer 7, false⟩⟩)) (.literal 2))]

/-- A record of it, with the given texts in its two rows. -/
def markedRecord (first second : String) : Json :=
  .object [("kind", .number (.signed 0)), ("n", .number (.unsigned 2)),
    ("rows", .array [
      .object [("id", .number (.signed 258)), ("name", .string first)],
      .object [("id", .number (.signed 258)), ("name", .string second)]]),
    ("xs", .array [.number (.unsigned 7), .number (.unsigned 7)])]

theorem compile_markedDescription : compile markedDescription = .ok markedNode := rfl

theorem distinctKeys_markedDescription : markedDescription.DistinctKeys := by
  refine .object (by decide) ?_
  simp only [List.forall_mem_cons]
  refine ⟨.string, .string, .array ?_, .array ?_, List.forall_mem_nil _⟩
  · simp only [List.forall_mem_cons]
    refine ⟨.object (by decide) ?_, .string, List.forall_mem_nil _⟩
    simp only [List.forall_mem_cons]
    exact ⟨.string, .string, List.forall_mem_nil _⟩
  · simp only [List.forall_mem_cons]
    exact ⟨.string, .number, List.forall_mem_nil _⟩

/-- Neither a branch nor an array to the end of the data occurs in the schema. -/
theorem branchFree_counted_markedNode : markedNode.BranchFree ∧ markedNode.Counted := by
  constructor <;> refine .struct trivial ?_ <;> simp only [List.forall_mem_cons]
  all_goals
    refine ⟨.leaf trivial, .leaf trivial, .array trivial (.struct trivial ?_),
      .array trivial (.leaf trivial), List.forall_mem_nil _⟩
    simp only [List.forall_mem_cons]
    exact ⟨.leaf trivial, .leaf trivial, List.forall_mem_nil _⟩

/-- Another text in the second row is no match, although without references the bytes have one. -/
theorem decodeRecord_filters_marked :
    (markedNode.decodeRecord ⟨1, true, ""⟩
        [9, 0, 2, 2, 1, 0x61, 0x3d, 0x62, 0, 2, 1, 0x61, 0x3d, 0x62, 0, 7, 7]).1
        = .ok ⟨some (markedRecord "a=b" "a=b"), 17, 16⟩
      ∧ markedNode.Satisfied (markedRecord "a=b" "a=b")
      ∧ (markedNode.undemanding.decodeRecord ⟨1, true, ""⟩
        [9, 0, 2, 2, 1, 0x61, 0x3d, 0x62, 0, 2, 1, 0x61, 0x62, 0, 7, 7]).1
        = .ok ⟨some (markedRecord "a=b" "ab"), 16, 15⟩
      ∧ (markedNode.decodeRecord ⟨1, true, ""⟩
        [9, 0, 2, 2, 1, 0x61, 0x3d, 0x62, 0, 2, 1, 0x61, 0x62, 0, 7, 7]).1 = .ok (.none 1) := by
  obtain ⟨branchFree, counted⟩ := branchFree_counted_markedNode
  have hfilters := decodeRecord_filters distinctKeys_markedDescription compile_markedDescription
    branchFree counted ⟨1, true, ""⟩
  have hmatch : (markedNode.decodeRecord ⟨1, true, ""⟩
        [9, 0, 2, 2, 1, 0x61, 0x3d, 0x62, 0, 2, 1, 0x61, 0x3d, 0x62, 0, 7, 7]).1
        = .ok ⟨some (markedRecord "a=b" "a=b"), 17, 16⟩ := eq_ok_of_toOption (by decide +kernel)
  have hfree : (markedNode.undemanding.decodeRecord ⟨1, true, ""⟩
        [9, 0, 2, 2, 1, 0x61, 0x3d, 0x62, 0, 2, 1, 0x61, 0x62, 0, 7, 7]).1
        = .ok ⟨some (markedRecord "a=b" "ab"), 16, 15⟩ := eq_ok_of_toOption (by decide +kernel)
  have hrefused : ¬ markedNode.Satisfied (markedRecord "a=b" "ab") := by
    intro h
    have hslot := h ⟨.cstring ⟨0, some ⟨"a=b", false⟩⟩, .string "ab"⟩
      (.tail _ (.tail _ (.tail _ (.tail _ (.tail _ (.head _))))))
    have hequal : "ab" = "a=b" := Slot.satisfied_cstring_iff.mp hslot _ rfl
    exact absurd hequal (by decide)
  exact ⟨hmatch, ((hfilters _ _ _ _).1.mp hmatch).2, hfree, (hfilters _ _ _ _).2 hfree hrefused⟩

end Node

end ByteRecord
