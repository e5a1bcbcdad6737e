import ByteRecord.Proofs.Encode.Writing
import ByteRecord.Proofs.Json.Equality
import ByteRecord.Proofs.Record.Spelling
import ByteRecord.Proofs.RoundTrip.Kept

/-!
# When the bytes of a record are read back in step

The encoder checks array sizes against the numbers of the record, the decoder works them out from
the numbers that the bytes keep. Where the two differ, decoding falls out of step with the
bytes, and so it does behind a text without a width that holds a zero byte. Nothing else can bring it
out of step.
-/

namespace ByteRecord

namespace Node

/-- Array lengths come to the sizes of the arrays when they read the numbers of this very value. -/
inductive CountsHold : Scope → Node → Json → Prop
  /-- A slot has no length. -/
  | leaf {scope : Scope} {tag : Tag} {value : Json} : CountsHold scope (.leaf tag) value
  /-- An array whose size is what its length comes to. -/
  | array {scope : Scope} {element : Node} {length : Length} {items : List Json}
      (size : length.evaluate scope = .ok (some items.length))
      (each : ∀ item ∈ items, CountsHold scope element item) :
      CountsHold scope (.array element length) (.array items)
  /-- The members of an object are what the lengths in it read. -/
  | struct {scope : Scope} {fields : List (String × Node)} {members : Members}
      (values : ∀ pair ∈ fields.zip members, CountsHold (some members) pair.1.2 pair.2.2) :
      CountsHold scope (.struct fields) (.object members)

/-- In a conforming record all counts hold, where there are counts. -/
theorem Conforms.countsHold {node : Node} (branchFree : node.BranchFree)
    (countsKnown : node.CountsKnown) {scope : Scope} {value : Json}
    (h : node.Conforms scope value) : node.CountsHold scope value := by
  induction node generalizing scope value with
  | leaf tag => exact .leaf
  | array element length ih =>
    cases h with
    | array size each =>
      refine .array (countsKnown.evaluate_eq size) fun item hitem => ?_
      exact ih branchFree.element countsKnown.element (each item hitem)
  | branch alternatives ih => exact absurd branchFree BranchFree.not_branch
  | struct fields ih =>
    cases h with
    | struct names values =>
      refine .struct fun pair hpair => ?_
      have hmem := (List.of_mem_zip hpair).1
      exact ih pair.1 hmem (branchFree.field hmem) (countsKnown.field hmem) (values pair hpair)

end Node

/-- What is kept of a slot may stand in it, if nothing is demanded. -/
theorem Slot.Written.holds {slot : Slot} {bytes : List UInt8} (h : slot.Written bytes)
    (free : slot.tag.hasConstraint = false) : slot.tag.Holds (slot.tag.spelled bytes) := by
  have hlength := h.length_eq
  cases h with
  | scalar taken =>
    rename_i tag value scalar
    have hwidth : (tag.type.toOctets tag.order scalar).length = tag.type.size :=
      Endian.length_octets ..
    dsimp only [Tag.spelled]
    rw [List.take_left' hwidth]
    have hnone := Option.isSome_eq_false_iff.mp free
    refine .scalar (ScalarType.holds_ofOctets _ hwidth) ?_
    rw [Option.isNone_iff_eq_none.mp hnone]
    exact nofun
  | string =>
    have hnone := Option.isSome_eq_false_iff.mp free
    refine .string (isFieldText_fieldText _) ((length_fieldText _).trans hlength) ?_
    rw [Option.isNone_iff_eq_none.mp hnone]
    exact nofun
  | cstring =>
    have hnone := Option.isSome_eq_false_iff.mp free
    refine .cstring (isFieldText_fieldText _) ?_ ?_ ?_
    · rw [nul_mem_fieldText]
      exact Reader.zero_notMem_untilZero _
    · intro hwidth
      rw [Slot.size, if_neg hwidth] at hlength
      rw [length_fieldText]
      exact (List.takeWhile_sublist _).length_le.trans_eq hlength
    · rw [Option.isNone_iff_eq_none.mp hnone]
      exact nofun

namespace Node

/-- If all fields are found, what is left of them are members of the same names. -/
theorem names_keptFields {members : Members} {fields : List (String × Node)}
    (found : ∀ field ∈ fields, ∃ value, members.find? field.1 = some value) :
    (keptFields members fields).map Prod.fst = fields.map Prod.fst := by
  induction fields with
  | nil => rfl
  | cons field rest ih =>
    obtain ⟨name, node⟩ := field
    obtain ⟨⟨value, hvalue⟩, hrest⟩ := List.forall_mem_cons.mp found
    rw [keptFields, hvalue, List.map_cons, List.map_cons, ih hrest]

/-- Each member of what is left is what is left of its field. -/
theorem forall_mem_zip_keptFields {members : Members} {fields : List (String × Node)}
    (found : ∀ field ∈ fields, ∃ value, members.find? field.1 = some value) :
    ∀ pair ∈ fields.zip (keptFields members fields),
      ∃ value, members.find? pair.1.1 = some value ∧ pair.2.2 = pair.1.2.kept value := by
  induction fields with
  | nil => exact List.forall_mem_nil _
  | cons field rest ih =>
    obtain ⟨name, node⟩ := field
    obtain ⟨⟨value, hvalue⟩, hrest⟩ := List.forall_mem_cons.mp found
    rw [keptFields, hvalue, List.zip_cons_cons]
    exact List.forall_mem_cons.mpr ⟨⟨value, hvalue, rfl⟩, ih hrest⟩

/-- What is left of a record that is encoded conforms to the schema if its counts hold. -/
theorem conforms_kept {node : Node} (demandFree : node.DemandFree) {scope left : Scope}
    {path : Path} {value : Json} (hfault : (node.plan scope path value).fault = none)
    (counts : node.CountsHold left (node.kept value)) : node.Conforms left (node.kept value) := by
  induction node generalizing scope left path value with
  | leaf tag =>
    rw [plan, Tag.fault_plan_eq_none_iff] at hfault
    exact .leaf (hfault.written.holds demandFree.here)
  | array element length ih =>
    cases value with
    | array items =>
      rw [kept] at counts ⊢
      cases counts with
      | array size each =>
        refine .array (Or.inr size) ?_
        rw [plan] at hfault
        split at hfault
        · cases hfault
        · intro item hitem
          obtain ⟨source, hsource, rfl⟩ := List.mem_map.mp hitem
          obtain ⟨path, hpath⟩ := Plan.exists_of_fault_forItems hfault source hsource
          exact ih demandFree.element hpath (each _ hitem)
    | _ => cases hfault
  | branch alternatives ih => cases hfault
  | struct fields ih =>
    cases value with
    | object members =>
      rw [kept] at counts ⊢
      rw [plan] at hfault
      have hfields := exists_of_fault_planFields hfault
      have hfound : ∀ field ∈ fields, ∃ value, Members.find? members field.1 = some value := by
        intro field hfield
        obtain ⟨value, hvalue, -⟩ := hfields field hfield
        exact ⟨value, hvalue⟩
      cases counts with
      | struct values =>
        refine .struct (names_keptFields hfound) fun pair hpair => ?_
        have hmem := (List.of_mem_zip hpair).1
        obtain ⟨value, hvalue, hkept⟩ := forall_mem_zip_keptFields hfound pair hpair
        obtain ⟨other, hother, path, hpath⟩ := hfields pair.1 hmem
        rw [hvalue] at hother
        injection hother with hother
        have hcounts := values pair hpair
        rw [hkept] at hcounts ⊢
        exact ih pair.1 hmem (demandFree.field hmem) (hother ▸ hpath) hcounts
    | _ => cases hfault

end Node

/-- What is written for slots spells what is kept of them. -/
theorem spelled_kept {slots : List Slot} (typed : ∀ slot ∈ slots, slot.tag.WellTyped)
    (written : ∀ slot ∈ slots, slot.Writable)
    (ends : ∀ slot ∈ slots, slot.Ends) (holds : ∀ slot ∈ slots, slot.tag.Holds slot.kept) :
    Spelled (slots.map fun slot => ⟨slot.tag, slot.kept⟩) (slots.flatMap Slot.octets) := by
  induction slots with
  | nil => exact .nil
  | cons slot rest ih =>
    obtain ⟨htyped, htypeds⟩ := List.forall_mem_cons.mp typed
    obtain ⟨hwritten, hwrittens⟩ := List.forall_mem_cons.mp written
    obtain ⟨hends, hendss⟩ := List.forall_mem_cons.mp ends
    obtain ⟨hholds, hholdss⟩ := List.forall_mem_cons.mp holds
    rw [List.map_cons, List.flatMap_cons]
    exact .cons (hwritten.written.spells htyped hends hholds)
      (ih htypeds hwrittens hendss hholdss)

/-- Slots are written into as many bytes as they take. -/
theorem length_octets_slots {slots : List Slot} (written : ∀ slot ∈ slots, slot.Writable) :
    (slots.flatMap Slot.octets).length = slotsSize slots := by
  induction slots with
  | nil => rfl
  | cons slot rest ih =>
    obtain ⟨hwritten, hwrittens⟩ := List.forall_mem_cons.mp written
    rw [List.flatMap_cons, List.length_append, slotsSize_cons, ih hwrittens,
      hwritten.written.length_eq]

/-- What is kept of slots takes as many bytes only if no zero byte ends a text early. -/
theorem ends_of_slotsSize_eq {slots : List Slot} (written : ∀ slot ∈ slots, slot.Writable) :
    slotsSize (slots.map fun slot => ⟨slot.tag, slot.kept⟩) ≤ slotsSize slots
      ∧ (slotsSize (slots.map fun slot => ⟨slot.tag, slot.kept⟩) = slotsSize slots →
        ∀ slot ∈ slots, slot.Ends) := by
  induction slots with
  | nil => exact ⟨Nat.le_refl _, fun _ => List.forall_mem_nil _⟩
  | cons slot rest ih =>
    obtain ⟨hwritten, hwrittens⟩ := List.forall_mem_cons.mp written
    obtain ⟨hle, hends⟩ := hwritten.written.size_spelled
    obtain ⟨hles, hendss⟩ := ih hwrittens
    rw [← Slot.kept] at hle hends
    rw [List.map_cons, slotsSize_cons, slotsSize_cons]
    refine ⟨Nat.add_le_add hle hles, fun hsame => ?_⟩
    exact List.forall_mem_cons.mpr ⟨hends (by omega), hendss (by omega)⟩

namespace Node

variable {description : Json} {node : Node} {record : Json} {capacity : Nat} {order : Endian}
  {encoded : Encoded}

/-- The bytes of a record spell what they keep of it, if that conforms to the schema and the texts
end where they should. -/
theorem spelled_octets_plan (typed : node.Typed) (names : node.DistinctNames)
    (hfault : (node.plan none .root record).fault = none)
    (conforms : node.Conforms none (node.kept record)) (ends : ∀ slot ∈ node.slots record, slot.Ends) :
    Spelled (node.slots (node.kept record)) (node.plan none .root record).octets := by
  have hcovers := covers_plan hfault
  have hholds := conforms.holds_slots names
  rw [slots_kept names] at hholds ⊢
  rw [hcovers.octets_eq]
  refine spelled_kept (typed.slots record) hcovers.writable ends fun slot hslot => ?_
  exact hholds ⟨slot.tag, slot.kept⟩ (List.mem_map_of_mem hslot)

/-- What is encoded is decoded into a record, all of it and nothing more, exactly if its bytes spell
the slots of that record and the record conforms. It is read back in step, each slot where it was
written, exactly if the array lengths come to the same sizes with the numbers that the bytes keep, and
no text without a width holds a zero byte. -/
theorem decode_encode_iff (distinct : description.DistinctKeys)
    (compiled : compile description = .ok node) (branchFree : node.BranchFree)
    (demandFree : node.DemandFree) (countsKnown : node.CountsKnown)
    (encodes : (node.encode record capacity order).1 = .ok encoded) (wholly : Bool)
    (label : String) :
    (∀ decoded, (node.decodeRecord ⟨0, wholly, label⟩ encoded.bytes).1
          = .ok ⟨some decoded, encoded.written, encoded.written⟩
        ↔ node.Conforms none decoded ∧ Spelled (node.slots decoded) encoded.bytes)
      ∧ ((node.decodeRecord ⟨0, wholly, label⟩ encoded.bytes).1
          = .ok ⟨some (node.kept record), encoded.written, encoded.written⟩
        ↔ node.CountsHold none (node.kept record) ∧ ∀ slot ∈ node.slots record, slot.Ends) := by
  have typed := typed_of_compile compiled
  have names := distinctNames_of_compile distinct compiled
  have reads := scopedIn_of_compile compiled
  obtain ⟨hfault, hbytes, hwritten⟩ := plan_of_encode_eq_ok encodes
  have hcovers := covers_plan hfault
  rw [hwritten]
  refine ⟨fun decoded =>
    decodeRecord_eq_ok_length_iff typed names reads branchFree countsKnown, ?_⟩
  rw [decodeRecord_eq_ok_length_iff typed names reads branchFree countsKnown, hbytes]
  constructor
  · rintro ⟨hconforms, hspelled⟩
    refine ⟨hconforms.countsHold branchFree countsKnown, ?_⟩
    -- What was read is what is kept of the slots, and it fills all the bytes that they were given.
    refine (ends_of_slotsSize_eq hcovers.writable).2 ?_
    rw [← slots_kept names, ← hspelled.length_eq, hcovers.octets_eq,
      length_octets_slots hcovers.writable]
  · rintro ⟨hcounts, hends⟩
    have hconforms := conforms_kept demandFree hfault hcounts
    exact ⟨hconforms, spelled_octets_plan typed names hfault hconforms hends⟩

/-- Describes a number and an array with one element more than the number says. -/
def successorDescription : Json :=
  .object [("n", .string "uint8"), ("xs", .array [.string "uint8", .string "n+1"])]

/-- The schema of that description. -/
def successorNode : Node :=
  struct [("n", leaf (.scalar ⟨.uint8, .big, 0, none⟩)),
    ("xs", array (leaf (.scalar ⟨.uint8, .big, 0, none⟩))
      (.expression [⟨.add, .field "n"⟩, ⟨.add, .count 1⟩]))]

/-- The record of that schema with the given number and items. -/
def successorRecord (n : Number) (items : List Json) : Json :=
  .object [("n", .number n), ("xs", .array items)]

theorem compile_successorDescription : compile successorDescription = .ok successorNode := rfl

theorem distinctKeys_successorDescription : successorDescription.DistinctKeys := by
  refine .object (by decide) ?_
  simp only [List.forall_mem_cons]
  refine ⟨.string, .array ?_, List.forall_mem_nil _⟩
  simp only [List.forall_mem_cons]
  exact ⟨.string, .string, List.forall_mem_nil _⟩

/-- A property of the three kinds of nodes in that schema holds of all its nodes. -/
theorem all_successorNode {p : Node → Prop} (hstruct : p successorNode)
    (harray : ∀ length, p (array (leaf (.scalar ⟨.uint8, .big, 0, none⟩))
      (.expression length)))
    (hleaf : p (leaf (.scalar ⟨.uint8, .big, 0, none⟩))) : successorNode.All p := by
  refine .struct hstruct ?_
  simp only [List.forall_mem_cons]
  exact ⟨.leaf hleaf, .array (harray _) (.leaf hleaf), List.forall_mem_nil _⟩

/-- The least count and its single element are read back. -/
theorem successor_inStep :
    (successorNode.decodeRecord ⟨0, false, ""⟩ [0, 7]).1
        = .ok ⟨some (successorRecord (.unsigned 0) [.number (.unsigned 7)]), 2, 2⟩
      ↔ successorNode.CountsHold none
          (successorNode.kept (successorRecord (.signed 0) [.number (.signed 7)]))
        ∧ ∀ slot ∈ successorNode.slots (successorRecord (.signed 0) [.number (.signed 7)]),
          slot.Ends := by
  have encodes : (successorNode.encode (successorRecord (.signed 0) [.number (.signed 7)]) 0 .big).1
      = .ok ⟨[0, 7], 2⟩ := eq_ok_of_toOption (by decide +kernel)
  exact (decode_encode_iff distinctKeys_successorDescription compile_successorDescription
    (all_successorNode trivial (fun _ => trivial) trivial)
    (all_successorNode trivial (fun _ => trivial) rfl)
    (all_successorNode trivial (fun _ => trivial) trivial) encodes false "").2

/-- The number minus one has a successor of zero, so an empty array is accepted. The byte keeps 255,
and decoding looks for 256 elements. -/
theorem successor_outOfStep :
    (successorNode.encode (successorRecord (.signed (-1)) []) 0 .big).1 = .ok ⟨[255], 1⟩
      ∧ ∀ record stop consumed, (successorNode.decodeRecord ⟨0, false, ""⟩ [255]).1
        ≠ .ok ⟨some record, stop, consumed⟩ := by
  refine ⟨eq_ok_of_toOption (by decide +kernel), fun record stop consumed h => ?_⟩
  have hnone : (successorNode.decodeRecord ⟨0, false, ""⟩ [255]).1.toOption = none := by
    decide +kernel
  rw [h] at hnone
  cases hnone

end Node

end ByteRecord
