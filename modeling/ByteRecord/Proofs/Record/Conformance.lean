import ByteRecord.Proofs.Decode.Inversion
import ByteRecord.Proofs.Decode.Record
import ByteRecord.Proofs.Json.Equality
import ByteRecord.Proofs.Length.Scope
import ByteRecord.Proofs.Octets.Text
import ByteRecord.Proofs.Scalar.Comparing
import ByteRecord.Proofs.Scalar.Keeping
import ByteRecord.Proofs.Schema.Describing

/-!
# Records that conform to a schema

`Node.Conforms` says what a record of a schema looks like, without reference to bytes: the fields of
a struct in their order, numbers in range, texts that fit their slots, arrays of the size that
their length has in the completed struct, and demands that are met by the exact values. Every record
that is decoded conforms. The array lengths are the point: decoding works them out while the struct is
incomplete.
-/

namespace ByteRecord

/-- The demand is met, given whether the value equals the reference. -/
def Constraint.Met {α : Type} (demand : Constraint α) (equal : Prop) : Prop :=
  if demand.negated then ¬ equal else equal

/-- The value may stand in a slot of the tag. -/
inductive Tag.Holds : Tag → Json → Prop
  /-- A number in the range of the type. -/
  | scalar {tag : ScalarTag} {n : Number} (range : tag.type.Holds n)
      (demand : ∀ demand, tag.constraint = some demand → demand.Met (demand.value.Equal n)) :
      Holds (.scalar tag) (.number n)
  /-- A text that fills its slot. -/
  | string {tag : TextTag} {s : String} (chars : IsFieldText s)
      (length : s.length = tag.paddedTo.toNat)
      (demand : ∀ demand, tag.constraint = some demand → demand.Met (s = demand.value)) :
      Holds (.string tag) (.string s)
  /-- A text that a zero byte can end, and that fits its slot if the slot has a width. -/
  | cstring {tag : TextTag} {s : String} (chars : IsFieldText s) (free : '\x00' ∉ s.toList)
      (length : tag.paddedTo ≠ 0 → s.length ≤ tag.paddedTo.toNat)
      (demand : ∀ demand, tag.constraint = some demand → demand.Met (s = demand.value)) :
      Holds (.cstring tag) (.string s)

/-- The value is a record of the node, where array lengths read the given scope. -/
inductive Node.Conforms : Scope → Node → Json → Prop
  /-- A value that its slot holds. -/
  | leaf {scope : Scope} {tag : Tag} {value : Json} (holds : tag.Holds value) :
      Conforms scope (.leaf tag) value
  /-- An array whose size is what its length comes to, if the length comes to a count at all. -/
  | array {scope : Scope} {element : Node} {length : Length} {items : List Json}
      (size : length.evaluate scope = .ok none ∨ length.evaluate scope = .ok (some items.length))
      (each : ∀ item ∈ items, Conforms scope element item) :
      Conforms scope (.array element length) (.array items)
  /-- A value of one of the alternatives. -/
  | branch {scope : Scope} {alternatives : List Node} {node : Node} {value : Json}
      (mem : node ∈ alternatives) (holds : Conforms scope node value) :
      Conforms scope (.branch alternatives) value
  /-- An object with the declared fields in their order, which is the scope of its parts. -/
  | struct {scope : Scope} {fields : List (String × Node)} {members : Members}
      (names : members.map Prod.fst = fields.map Prod.fst)
      (values : ∀ pair ∈ fields.zip members, Conforms (some members) pair.1.2 pair.2.2) :
      Conforms scope (.struct fields) (.object members)

/-- A demand is met exactly if it admits the value. -/
theorem Constraint.admits_iff_met {α : Type} {demand : Constraint α} {equal : Bool} :
    demand.admits equal = true ↔ demand.Met (equal = true) := by
  unfold admits Met
  cases demand.negated <;> cases equal <;> decide

/-- A number in the range of its type meets a demand of this type by its exact value. -/
theorem ScalarTag.admits_iff {tag : ScalarTag} {n : Number} (typed : (Tag.scalar tag).WellTyped)
    (range : tag.type.Holds n) :
    tag.admits n = true ↔ ∀ demand, tag.constraint = some demand →
      demand.Met (demand.value.Equal n) := by
  simp only [admits, Option.all_eq_true, Constraint.admits_iff_met]
  refine forall₂_congr fun demand hdemand => ?_
  rw [Constraint.Met, Constraint.Met, ScalarRef.equals_iff (typed.isReal_eq hdemand) range]

theorem TextTag.admits_iff {tag : TextTag} {s : String} :
    tag.admits s = true ↔ ∀ demand, tag.constraint = some demand →
      demand.Met (s = demand.value) := by
  simp only [admits, Option.all_eq_true, Constraint.admits_iff_met, beq_iff_eq]

namespace Node

/-- The reference of the node is of the kind of its values, if it is a leaf. -/
def ReferenceTyped : Node → Prop
  | leaf tag => tag.WellTyped
  | _ => True

/-- All references in the schema are of the kind of the values that they are compared with. -/
abbrev Typed (node : Node) : Prop := node.All ReferenceTyped

/-- The references of a compiled schema are typed. -/
theorem typed_of_compile {description : Json} {node : Node} (h : compile description = .ok node) :
    node.Typed := by
  refine (wellFormed_of_compileAt h).mono fun node formed => ?_
  cases node with
  | leaf tag => exact formed
  | _ => trivial

end Node

/-- What the bytes of a slot spell may stand in the slot. -/
theorem Tag.Spells.holds {tag : Tag} {slot : List UInt8} {value : Json} (typed : tag.WellTyped)
    (h : tag.Spells slot value) : tag.Holds value := by
  cases h with
  | scalar hwidth hpadding hadmits =>
    rename_i tag content fill
    have hrange := ScalarType.holds_ofOctets tag.order hwidth
    exact .scalar hrange ((ScalarTag.admits_iff typed hrange).mp hadmits)
  | string hwidth hadmits =>
    refine .string (isFieldText_fieldText _) ?_ (TextTag.admits_iff.mp hadmits)
    rw [length_fieldText, hwidth]
  | padded hbounded hwidth hadmits =>
    refine .cstring (isFieldText_fieldText _) ?_ ?_ (TextTag.admits_iff.mp hadmits)
    · rw [nul_mem_fieldText]
      exact Reader.zero_notMem_untilZero _
    · intro _
      rw [length_fieldText, ← hwidth]
      exact (List.takeWhile_sublist _).length_le
  | terminated hunbounded hfree hadmits =>
    refine .cstring (isFieldText_fieldText _) ?_ ?_ (TextTag.admits_iff.mp hadmits)
    · rwa [nul_mem_fieldText]
    · exact fun h => absurd hunbounded h

/-- Each member of a run of fields is a match of its own, in a scope that the completed struct
extends. -/
theorem FieldRun.forall_mem_zip {p : Node → Json → Prop} {done added : Members}
    {fields : List (String × Node)} {r next : Reader} (run : FieldRun done fields r added next)
    (hp : ∀ field ∈ fields, ∀ part r value next, Scope.Extends (some (done ++ added)) part →
      (field.2.decode part r).Matches value next → p field.2 value) :
    ∀ pair ∈ fields.zip added, p pair.1.2 pair.2.2 := by
  induction run with
  | nil => exact List.forall_mem_nil _
  | cons first rest ih =>
    rename_i done added name node fields r mid next value
    obtain ⟨hfirst, hrest⟩ := List.forall_mem_cons.mp hp
    rw [List.zip_cons_cons]
    refine List.forall_mem_cons.mpr ⟨hfirst _ _ _ _ (Scope.extends_append _ _) first, ih ?_⟩
    rw [List.append_assoc]
    exact hrest

/-- Lists with the same names have a partner for each entry. -/
theorem Members.exists_mem_zip {fields : List (String × Node)} {members : Members}
    (names : members.map Prod.fst = fields.map Prod.fst) :
    ∀ field ∈ fields, ∃ value, (field, (field.1, value)) ∈ fields.zip members := by
  induction fields generalizing members with
  | nil => exact List.forall_mem_nil _
  | cons field fields ih =>
    cases members with
    | nil => cases names
    | cons member members =>
      obtain ⟨name, value⟩ := member
      rw [List.map_cons, List.map_cons] at names
      injection names with hname hnames
      refine List.forall_mem_cons.mpr ⟨⟨value, ?_⟩, ?_⟩
      · rw [← hname]
        exact List.mem_cons_self
      · intro other hother
        obtain ⟨found, hfound⟩ := ih hnames other hother
        exact ⟨found, List.mem_cons_of_mem _ hfound⟩

namespace Node

/-- In a conforming object with different names, every declared field is found and conforms. -/
theorem Conforms.forall_fields {scope : Scope} {fields : List (String × Node)} {value : Json}
    (h : Conforms scope (.struct fields) value) (distinct : (fields.map Prod.fst).Nodup) :
    ∃ members, value = .object members ∧ members.map Prod.fst = fields.map Prod.fst
      ∧ ∀ field ∈ fields, ∃ value, Members.find? members field.1 = some value
        ∧ Conforms (some members) field.2 value := by
  cases h with
  | struct names values =>
    rename_i members
    refine ⟨members, rfl, names, ?_⟩
    intro field hfield
    obtain ⟨value, hpair⟩ := Members.exists_mem_zip names field hfield
    have hmem := (List.of_mem_zip hpair).2
    exact ⟨value, Members.find?_of_mem (names ▸ distinct) hmem, values _ hpair⟩

/-- Whatever matches conforms, in the scope at hand and in every one that extends it. -/
theorem conforms_of_matches {node : Node} (typed : node.Typed) {part full : Scope}
    {r next : Reader} {value : Json} (grown : full.Extends part)
    (h : (node.decode part r).Matches value next) : node.Conforms full value := by
  induction node generalizing part full r next value with
  | leaf tag =>
    rw [decode] at h
    obtain ⟨slot, -, hspells⟩ := Tag.decode_matches_iff.mp h
    exact .leaf (hspells.holds typed.here)
  | array element length ih =>
    obtain ⟨items, count?, rfl, run, hresolve, hcount⟩ := decode_array_matches h
    refine .array ?_ (run.forall_mem fun r value next hitem => ih typed.element grown hitem)
    rcases Length.evaluate_of_resolve hresolve with hnone | hsome
    · exact Or.inl (Length.evaluate_of_extends grown hnone)
    · have hfull := Length.evaluate_of_extends grown hsome
      cases count? with
      | none => exact Or.inl hfull
      | some count =>
        rw [hcount count rfl]
        exact Or.inr hfull
  | branch alternatives ih =>
    obtain ⟨before, node, behind, rfl, -, hnode⟩ := decode_branch_matches_iff.mp h
    have hmem : node ∈ before ++ node :: behind := List.mem_append_right _ List.mem_cons_self
    exact .branch hmem (ih node hmem (typed.alternative hmem) grown hnode)
  | struct fields ih =>
    obtain ⟨members, rfl, run⟩ := decode_struct_matches_iff.mp h
    refine .struct run.names_eq (run.forall_mem_zip ?_)
    intro field hfield part r value next hpart hvalue
    exact ih field hfield (typed.field hfield) hpart hvalue

/-- Every record that is decoded with a compiled schema conforms to it, whatever the bytes are and
wherever in them the record starts. -/
theorem decoded_conforms {description : Json} {node : Node}
    (compiled : compile description = .ok node) (options : DecodeOptions) (bytes : List UInt8)
    (record : Json) (stop consumed : Nat)
    (h : (node.decodeRecord options bytes).1 = .ok ⟨some record, stop, consumed⟩) :
    node.Conforms none record := by
  obtain ⟨-, next, hmatch, -⟩ := decodeRecord_eq_ok_some_iff.mp h
  exact conforms_of_matches (typed_of_compile compiled) (Scope.Extends.refl _) hmatch

/-- Describes a number other than three, as many texts, and the rest of the data. -/
def oneNotThreeDescription : Json :=
  .object [("n", .string "uint8!=3"), ("texts", .array [.string "cstring", .string "n"]),
    ("rest", .array [.string "int8", .string "*"])]

/-- The schema of that description. -/
def oneNotThreeNode : Node :=
  struct [("n", leaf (.scalar ⟨.uint8, .big, 0, some ⟨.integer 3, true⟩⟩)),
    ("texts", array (leaf (.cstring ⟨0, none⟩)) (.field "n")),
    ("rest", array (leaf (.scalar ⟨.int8, .big, 0, none⟩)) .remainder)]

/-- Two texts behind their count, read from the second byte on, and the rest of the data. -/
theorem decoded_texts_conform :
    oneNotThreeNode.Conforms none
      (.object [("n", .number (.unsigned 2)), ("texts", .array [.string "a", .string "bc"]),
        ("rest", .array [.number (.signed (-1))])]) :=
  decoded_conforms (show compile oneNotThreeDescription = .ok oneNotThreeNode from rfl) ⟨1, false, ""⟩
    [9, 2, 0x61, 0, 0x62, 0x63, 0, 255] _ 8 7 (eq_ok_of_toOption (by decide +kernel))

end Node

end ByteRecord
