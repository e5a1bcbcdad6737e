import ByteRecord.Decode.Record
import ByteRecord.Proofs.FixedLayout.Decoding
import ByteRecord.Proofs.FixedLayout.Placement

/-!
# Reading through a fixed layout

Decoding a struct in order and reading its fields through a fixed layout give the same values. Each
field of the struct takes its number of bytes, so decoding comes to it where the layout places it;
and a fixed node has the same value wherever its bytes stand.
-/

namespace ByteRecord

namespace FixedLayout

open Node

variable {layout : FixedLayout} {bytes : List UInt8}

theorem names_placed (start : Nat) (fields : List (String × Node)) :
    (placed start fields).map PlacedField.name = fields.map Prod.fst := by
  induction fields generalizing start with
  | nil => rfl
  | cons field rest ih => rw [placed, List.map_cons, List.map_cons, ih]

/-- Where names differ, a field is found by its name. -/
theorem field_eq_ok (distinct : (layout.fields.map PlacedField.name).Nodup) {field : PlacedField}
    (h : field ∈ layout.fields) : layout.field field.name = .ok field := by
  have hfind : layout.fields.find? (fun other => other.name == field.name) = some field := by
    obtain ⟨before, behind, hsplit⟩ := List.append_of_mem h
    rw [hsplit, List.find?_append]
    have hbefore : before.find? (fun other => other.name == field.name) = none := by
      rw [List.find?_eq_none]
      intro other hother hname
      rw [hsplit, List.map_append, List.map_cons, List.nodup_append] at distinct
      exact distinct.2.2 _ (List.mem_map_of_mem hother) _ List.mem_cons_self (by simpa using hname)
    simp [hbefore]
  rw [FixedLayout.field, hfind]

/-- A field is read from its own bytes. -/
theorem get_eq_ok (room : layout.size.toNat ≤ bytes.length) {field : PlacedField}
    (found : layout.field field.name = .ok field) {value : Json} {next : Reader}
    (h : (field.node.decode none (Reader.ofBytes (field.slice bytes))).Matches value next) :
    layout.get bytes field.name = .ok value := by
  have hlocate : layout.locate bytes field.name = .ok field := by
    rw [locate, if_neg (Nat.not_lt.mpr room), found]
  rw [get, bind_eq_ok_iff]
  exact ⟨field, hlocate, by rw [h.1]⟩

/-- Fields that are all read give an object of what is read. -/
theorem readFields_eq_ok {fields : List PlacedField} {done added : Members}
    (names : added.map Prod.fst = fields.map PlacedField.name)
    (each : ∀ pair ∈ fields.zip added, layout.get bytes pair.1.name = .ok pair.2.2) :
    layout.readFields bytes done (fields.map PlacedField.name) = .ok (done ++ added) := by
  induction fields generalizing done added with
  | nil =>
    rw [List.map_nil, List.map_eq_nil_iff] at names
    rw [names, List.append_nil]
    rfl
  | cons field rest ih =>
    cases added with
    | nil => cases names
    | cons member added =>
      obtain ⟨name, value⟩ := member
      rw [List.map_cons, List.map_cons] at names
      injection names with hname hnames
      dsimp only at hname
      rw [List.zip_cons_cons] at each
      obtain ⟨hfirst, hrest⟩ := List.forall_mem_cons.mp each
      have hlater : layout.readFields bytes (done ++ [(name, value)]) (rest.map PlacedField.name)
          = .ok (done ++ [(name, value)] ++ added) := ih hnames hrest
      rw [List.append_assoc, List.singleton_append] at hlater
      rw [List.map_cons, readFields, bind_eq_ok_iff]
      exact ⟨value, hfirst, hname ▸ hlater⟩

/-- Decoding comes to each field where it is placed, so a field has the value of its slice. -/
theorem forall_placed_matches {done added : Members} {fields : List (String × Node)}
    {start : Nat} {next : Reader}
    (run : FieldRun done fields ((Reader.ofBytes bytes).advance start) added next)
    (width : start + fieldsExtent fields < wordCount)
    (takes : ∀ field ∈ fields, ∀ scope, Takes (field.2.decode scope) field.2.extent)
    (elsewhere : ∀ field ∈ fields, field.2.Fixed ∧ field.2.Typed ∧ field.2.DistinctNames) :
    ∀ pair ∈ (placed start fields).zip added, pair.2.1 = pair.1.name ∧ ∃ behind,
      (pair.1.node.decode none (Reader.ofBytes (pair.1.slice bytes))).Matches pair.2.2 behind := by
  induction fields generalizing done added start with
  | nil => exact List.forall_mem_nil _
  | cons field rest ih =>
    cases run with
    | cons first later =>
      rename_i added name node mid value
      obtain ⟨htakes, htakesLater⟩ := List.forall_mem_cons.mp takes
      obtain ⟨⟨hfixed, htyped, hdistinct⟩, helsewhere⟩ := List.forall_mem_cons.mp elsewhere
      rw [fieldsExtent, ← Nat.add_assoc] at width
      have hmid := (htakes _).next_eq first
      rw [Reader.advance_advance] at hmid
      subst hmid
      obtain ⟨region, hpass, hvalue⟩ := hfixed.matches_elsewhere htyped hdistinct first
      -- The bytes that are passed are those of the slice, since no word wraps.
      have hlength : region.length = node.extent := by
        have hoffset := hpass.offset
        simp only [Reader.advance, Reader.ofBytes] at hoffset
        omega
      have hslice : PlacedField.slice
          ⟨name, UInt64.ofNat start, UInt64.ofNat node.extent, node⟩ bytes = region := by
        have hstart : (UInt64.ofNat start).toNat = start := by
          rw [UInt64.toNat_ofNat']
          rw [wordCount] at width
          omega
        have hsize : (UInt64.ofNat node.extent).toNat = node.extent := by
          rw [UInt64.toNat_ofNat']
          rw [wordCount] at width
          omega
        rw [PlacedField.slice, hstart, hsize, ← hlength]
        exact hpass.eq_take.symm
      have hplace := Reader.passes_ofBytes region []
      rw [List.append_nil] at hplace
      rw [placed, List.zip_cons_cons]
      refine List.forall_mem_cons.mpr ⟨⟨rfl, ⟨region.length, []⟩, ?_⟩,
        ih later width htakesLater helsewhere⟩
      dsimp only
      rw [hslice]
      exact hvalue none _ _ hplace

/-- Every field is read as it is decoded. -/
theorem get_eq_decoded {fields : List (String × Node)} {members : Members} {next : Reader}
    (placing : layout.fields = placed 0 fields) (distinct : (fields.map Prod.fst).Nodup)
    (room : layout.size.toNat ≤ bytes.length) (width : fieldsExtent fields < wordCount)
    (takes : ∀ field ∈ fields, ∀ scope, Takes (field.2.decode scope) field.2.extent)
    (elsewhere : ∀ field ∈ fields, field.2.Fixed ∧ field.2.Typed ∧ field.2.DistinctNames)
    (run : FieldRun [] fields ((Reader.ofBytes bytes).advance 0) members next) :
    ∀ pair ∈ layout.fields.zip members,
      pair.2.1 = pair.1.name ∧ layout.get bytes pair.1.name = .ok pair.2.2 := by
  intro pair hpair
  have hdistinct : (layout.fields.map PlacedField.name).Nodup := by
    rwa [placing, names_placed]
  have hfield := field_eq_ok hdistinct (List.of_mem_zip hpair).1
  rw [placing] at hpair
  have hwidth : 0 + fieldsExtent fields < wordCount := by rwa [Nat.zero_add]
  have hplaced := forall_placed_matches run hwidth takes elsewhere
  obtain ⟨hname, behind, hmatch⟩ := hplaced pair hpair
  exact ⟨hname, get_eq_ok room hfield hmatch⟩

/-- What is read of the fields in order is found under their names. -/
theorem exists_find?_of_get {members : Members}
    (names : members.map Prod.fst = layout.fields.map PlacedField.name)
    (distinct : (members.map Prod.fst).Nodup)
    (each : ∀ pair ∈ layout.fields.zip members,
      pair.2.1 = pair.1.name ∧ layout.get bytes pair.1.name = .ok pair.2.2) :
    ∀ field ∈ layout.fields, ∃ value, members.find? field.name = some value
      ∧ layout.get bytes field.name = .ok value := by
  intro field hfield
  have hlength : layout.fields.length ≤ members.length := by
    have h := congrArg List.length names
    rw [List.length_map, List.length_map] at h
    exact h.ge
  rw [← List.map_fst_zip hlength] at hfield
  obtain ⟨pair, hpair, rfl⟩ := List.mem_map.mp hfield
  obtain ⟨hname, hget⟩ := each pair hpair
  have hmember : (pair.1.name, pair.2.2) ∈ members := hname ▸ (List.of_mem_zip hpair).2
  exact ⟨pair.2.2, Members.find?_of_mem distinct hmember, hget⟩

/-- A layout that is longer than a buffer reads nothing of it. -/
theorem get_eq_error (short : bytes.length < layout.size.toNat) (name : String) :
    layout.get bytes name
      = .error (.access (.bounds (.shortBuffer bytes.length layout.size.toNat))) := by
  rw [get, locate, if_pos short]
  rfl

theorem readAll_eq_error (short : bytes.length < layout.size.toNat) (filled : layout.fields ≠ []) :
    layout.readAll bytes
      = .error (.access (.bounds (.shortBuffer bytes.length layout.size.toNat))) := by
  cases hfields : layout.fields with
  | nil => exact absurd hfields filled
  | cons field rest =>
    rw [readAll, hfields, List.map_cons, readFields, get_eq_error short]
    rfl

/-- Reading through a fixed layout agrees with decoding in order, as long as literal lengths are not
rounded and widths do not wrap. A buffer that is long enough is decoded over the size of the layout,
and every field is read as decoded. Of a shorter one nothing is read or decoded. -/
theorem reads_eq_decoded {description : Json} {node : Node}
    (distinct : description.DistinctKeys) (compiled : compile description = .ok node)
    (built : ofNode node = .ok layout) (literals : node.All LiteralExact)
    (width : node.extent < wordCount) (bytes : List UInt8) (label : String) :
    (layout.size.toNat ≤ bytes.length →
      ∃ members, (node.decodeRecord ⟨0, false, label⟩ bytes).1
          = .ok ⟨some (.object members), layout.size.toNat, layout.size.toNat⟩
        ∧ layout.readAll bytes = .ok (.object members)
        ∧ ∀ field ∈ layout.fields, ∃ value, Members.find? members field.name = some value
            ∧ layout.get bytes field.name = .ok value)
    ∧ (bytes.length < layout.size.toNat →
      (∀ name, ∃ cause, layout.get bytes name = .error (.access (.bounds cause)))
        ∧ (∃ cause, layout.readAll bytes = .error (.access (.bounds cause)))
        ∧ ∃ cause, (node.decodeRecord ⟨0, false, label⟩ bytes).1 = .error (.bounds cause)) := by
  have typed := typed_of_compile compiled
  have names := distinctNames_of_compile distinct compiled
  obtain ⟨fields, rfl, heach, hlayout⟩ := ofNode_eq_ok built
  have hplacing : layout.fields = placed 0 fields := by rw [hlayout]
  have hsize : layout.size.toNat = fieldsExtent fields := by
    rw [hlayout, UInt64.toNat_ofNat']
    exact Nat.mod_eq_of_lt width
  have htakes : ∀ field ∈ fields, ∀ scope, Takes (field.2.decode scope) field.2.extent := by
    intro field hfield scope
    obtain ⟨hfixed, hfree⟩ := heach field hfield
    exact hfixed.takes_decode hfree (literals.field hfield) scope
  have hstruct := takes_decode_struct htakes none
  refine ⟨fun room => ?_, fun short => ?_⟩
  · obtain ⟨value, hvalue⟩ := hstruct.enough ((Reader.ofBytes bytes).advance 0) (hsize ▸ room)
    obtain ⟨members, rfl, run⟩ := decode_struct_matches_iff.mp hvalue
    have hnames : members.map Prod.fst = layout.fields.map PlacedField.name := by
      rw [run.names_eq, hplacing, names_placed]
    have hread := get_eq_decoded hplacing names.here room width htakes
      (fun field hfield => ⟨(heach field hfield).1, typed.field hfield, names.field hfield⟩) run
    refine ⟨members, ?_, ?_, fun field hfield => ?_⟩
    · refine decodeRecord_eq_ok_some_iff.mpr ⟨Nat.zero_le _, _, hvalue, nofun, ?_, ?_⟩
      · simp [hsize, Reader.advance, Reader.ofBytes]
      · simp [hsize, Reader.advance, Reader.ofBytes]
    · have hfields : layout.readFields bytes [] (layout.fields.map PlacedField.name)
          = .ok ([] ++ members) := readFields_eq_ok hnames fun pair hpair => (hread pair hpair).2
      exact map_eq_ok_iff.mpr ⟨members, hfields, rfl⟩
    · have hdistinct : (members.map Prod.fst).Nodup := by
        rw [run.names_eq]
        exact names.here
      exact exists_find?_of_get hnames hdistinct hread field hfield
  · refine ⟨fun name => ⟨_, get_eq_error short name⟩, ⟨_, readAll_eq_error short ?_⟩, ?_⟩
    · intro hnone
      rw [hplacing] at hnone
      cases fields with
      | nil => simp [hsize, fieldsExtent] at short
      | cons field rest => cases hnone
    · obtain ⟨cause, hfails⟩ := hstruct.short ((Reader.ofBytes bytes).advance 0) (hsize ▸ short)
      exact ⟨cause, decodeRecord_eq_error_iff.mpr (Or.inr ⟨Nat.zero_le _, hfails⟩)⟩

theorem distinctKeys_textAndNumbersDescription : textAndNumbersDescription.DistinctKeys := by
  refine .object (by decide) ?_
  simp only [List.forall_mem_cons]
  refine ⟨.string, .array ?_, List.forall_mem_nil _⟩
  simp only [List.forall_mem_cons]
  exact ⟨.string, .number, List.forall_mem_nil _⟩

theorem compile_textAndNumbersDescription :
    compile textAndNumbersDescription = .ok textAndNumbersNode := rfl

theorem literalExact_textAndNumbersNode : textAndNumbersNode.All LiteralExact := by
  refine .struct trivial ?_
  simp only [List.forall_mem_cons]
  have hcount : (2 : Int64).toInt ≤ integerBound := by decide
  exact ⟨.leaf trivial, .array hcount (.leaf trivial), List.forall_mem_nil _⟩

/-- Read through the layout, a text and two numbers are what they are decoded as, and a buffer that
lacks a byte is refused by both. -/
theorem reads_eq_decoded_textAndNumbers :
    (∃ members, (textAndNumbersNode.decodeRecord ⟨0, false, ""⟩
          ([0x61, 0, 9, 9, 9, 9, 9, 9] ++ [0, 1, 9, 9] ++ [0, 2, 9, 9] ++ [7])).1
        = .ok ⟨some (.object members), 16, 16⟩
      ∧ textAndNumbersLayout.readAll
          ([0x61, 0, 9, 9, 9, 9, 9, 9] ++ [0, 1, 9, 9] ++ [0, 2, 9, 9] ++ [7])
        = .ok (.object members))
    ∧ ∃ cause, textAndNumbersLayout.get (List.replicate 15 0) "xs"
        = .error (.access (.bounds cause)) := by
  have agrees := reads_eq_decoded distinctKeys_textAndNumbersDescription
    compile_textAndNumbersDescription ofNode_textAndNumbersNode literalExact_textAndNumbersNode
    (by decide)
  refine ⟨?_, ?_⟩
  · obtain ⟨members, hdecoded, hread, -⟩ := (agrees
      ([0x61, 0, 9, 9, 9, 9, 9, 9] ++ [0, 1, 9, 9] ++ [0, 2, 9, 9] ++ [7]) "").1 (by decide)
    exact ⟨members, hdecoded, hread⟩
  · obtain ⟨hshort, -⟩ := (agrees (List.replicate 15 0) "").2 (by decide)
    exact hshort "xs"

end FixedLayout

end ByteRecord
