import ByteRecord.Proofs.Atomicity
import ByteRecord.Proofs.FixedLayout.Overwriting
import ByteRecord.Proofs.FixedLayout.Width
import ByteRecord.Proofs.RoundTrip.Decoded

/-!
# Writing through a fixed layout

Whether a field is written is decided by the value and by how long the buffer is, not by what stands
in it; and what is put down is decided by the value alone. A fixed node fills its number of bytes, so
the buffer under way is never too small, and what is put down covers the bytes of the field and no
others. That one write does not disturb another is a matter of replacing bytes from there on.
-/

namespace ByteRecord

namespace Node

theorem extent_le_fieldsExtent {fields : List (String × Node)} :
    ∀ field ∈ fields, field.2.extent ≤ fieldsExtent fields := by
  induction fields with
  | nil => exact List.forall_mem_nil _
  | cons field rest ih =>
    rw [fieldsExtent]
    refine List.forall_mem_cons.mpr ⟨Nat.le_add_right _ _, fun other hother => ?_⟩
    exact (ih other hother).trans (Nat.le_add_left _ _)

end Node

namespace FixedLayout

open Node

variable {layout : FixedLayout} {bytes : List UInt8} {name : String} {value : Json}

/-- Fields are placed as the nodes that they come from, with their numbers of bytes. -/
theorem exists_of_mem_placed {start : Nat} {fields : List (String × Node)} {field : PlacedField}
    (h : field ∈ placed start fields) :
    ∃ source ∈ fields, field.node = source.2 ∧ field.size = UInt64.ofNat source.2.extent := by
  induction fields generalizing start with
  | nil => cases h
  | cons source rest ih =>
    rcases List.mem_cons.mp h with rfl | hrest
    · exact ⟨source, List.mem_cons_self, rfl, rfl⟩
    · obtain ⟨other, hother, hfield⟩ := ih hrest
      exact ⟨other, List.mem_cons_of_mem _ hother, hfield⟩

/-- Where no word wraps, the sizes of the fields add up to their numbers of bytes. -/
theorem total_placed {start : Nat} {fields : List (String × Node)}
    (width : fieldsExtent fields < wordCount) : total (placed start fields) = fieldsExtent fields := by
  induction fields generalizing start with
  | nil => rfl
  | cons field rest ih =>
    rw [fieldsExtent] at width
    have hsize : (UInt64.ofNat field.2.extent).toNat = field.2.extent :=
      UInt64.toNat_ofNat_of_lt' (Nat.lt_of_le_of_lt (Nat.le_add_right _ _) width)
    rw [placed, total_cons, ih (Nat.lt_of_le_of_lt (Nat.le_add_left _ _) width), fieldsExtent]
    dsimp only
    rw [hsize]

/-- The layout is exact: its words count bytes without wrapping, and its literal lengths are not
rounded. -/
structure Exact (layout : FixedLayout) : Prop where
  /-- The fields follow one another from the first byte on. -/
  consecutive : Consecutive 0 layout.fields
  /-- The size of the layout is that of its fields together. -/
  size_eq : layout.size.toNat = total layout.fields
  /-- Every field has a fixed node. -/
  fixed : ∀ field ∈ layout.fields, field.node.Fixed
  /-- The literal lengths of a field are numbers without rounding. -/
  literals : ∀ field ∈ layout.fields, field.node.All LiteralExact
  /-- The references in a field are of the kind of its values. -/
  typed : ∀ field ∈ layout.fields, field.node.Typed
  /-- No struct in a field repeats a name. -/
  names : ∀ field ∈ layout.fields, field.node.DistinctNames
  /-- The size of a field is its number of bytes. -/
  extent_eq : ∀ field ∈ layout.fields, field.size.toNat = field.node.extent

/-- The layout of a compiled schema is exact, if literal lengths are not rounded and the widths add up
to less than the number of words. -/
theorem exact_of_ofNode {description : Json} {node : Node} (distinct : description.DistinctKeys)
    (compiled : compile description = .ok node) (built : ofNode node = .ok layout)
    (literals : node.All LiteralExact) (width : node.extent < wordCount) : layout.Exact := by
  have typed := typed_of_compile compiled
  have names := distinctNames_of_compile distinct compiled
  obtain ⟨fields, rfl, heach, rfl⟩ := ofNode_eq_ok built
  rw [extent] at width
  have htotal : total (placed 0 fields) = fieldsExtent fields := total_placed width
  have hroom : 0 + total (placed 0 fields) < wordCount := by rwa [Nat.zero_add, htotal]
  obtain ⟨hconsecutive, hend⟩ := consecutive_placed (Nat.zero_mod wordCount) hroom
  rw [Nat.zero_add, Nat.zero_add] at hend
  refine ⟨hconsecutive, hend, ?_, ?_, ?_, ?_, ?_⟩
  all_goals
    intro field hfield
    obtain ⟨source, hsource, hnode, hsize⟩ := exists_of_mem_placed hfield
    rw [hnode]
  · exact (heach source hsource).1
  · exact literals.field hsource
  · exact typed.field hsource
  · exact names.field hsource
  · rw [hsize]
    exact UInt64.toNat_ofNat_of_lt' ((extent_le_fieldsExtent source hsource).trans_lt width)

/-- A field that is found is one of the layout and has the name. -/
theorem mem_of_field_eq_ok {field : PlacedField} (h : layout.field name = .ok field) :
    field ∈ layout.fields ∧ field.name = name := by
  rw [FixedLayout.field] at h
  split at h
  · rename_i found hfind
    obtain rfl : found = field := Except.ok.inj h
    exact ⟨List.mem_of_find?_eq_some hfind, by simpa using List.find?_some hfind⟩
  · cases h

namespace Exact

variable {field other : PlacedField}

/-- Every field ends within a buffer that is as long as the layout. -/
theorem within (exact : layout.Exact) (hfield : field ∈ layout.fields) {length : Nat}
    (room : layout.size.toNat ≤ length) :
    field.offset.toNat + field.size.toNat ≤ length := by
  have hbound := (exact.consecutive.bounds field hfield).2
  have hsize := exact.size_eq
  omega

/-- Fields of different names have no byte in common. -/
theorem apart (exact : layout.Exact) (hfield : field ∈ layout.fields)
    (hother : other ∈ layout.fields) (hne : field.name ≠ other.name) : field.Apart other := by
  have hpairwise : layout.fields.Pairwise PlacedField.Apart :=
    exact.consecutive.pairwise.imp Or.inl
  have hsymm : Std.Symm PlacedField.Apart := ⟨fun _ _ => PlacedField.Apart.symm⟩
  exact hpairwise.forall hfield hother fun hsame => hne (congrArg PlacedField.name hsame)

/-- A value of the shape of a field is encoded into as many bytes as the field has. -/
theorem content_spec (exact : layout.Exact) (hfield : field ∈ layout.fields)
    (accepts : field.node.Accepts none value) :
    (field.node.content value).length = field.size.toNat
      ∧ ∀ path capacity order growable, RoomFor field.size.toNat capacity growable →
        (field.node.encodeAt path value (.empty capacity order growable)).result
            = .ok field.size.toNat
          ∧ (field.node.encodeAt path value (.empty capacity order growable)).cursor.contents
            = field.node.content value := by
  have hextent := exact.extent_eq field hfield
  have hsmall : field.node.extent < wordCount := hextent ▸ field.size.toNat_lt
  have hencode := fun path capacity order growable
      (room : RoomFor field.node.extent capacity growable) =>
    (exact.fixed field hfield).encodeAt_of_accepts (exact.literals field hfield) hsmall accepts
      room order path
  rw [hextent]
  exact ⟨(hencode .root _ .big false (Or.inl (Nat.le_refl _))).1,
    fun path capacity order growable room => (hencode path capacity order growable room).2⟩

end Exact

/-- A write is refused, for a reason that no buffer of the same length changes and that is not want of
room. -/
def Refuses (layout : FixedLayout) (length : Nat) (name : String) (value : Json) : Prop :=
  ∃ cause, (∀ full, cause ≠ .access (.capacity full))
    ∧ ∀ bytes : List UInt8, bytes.length = length → layout.set bytes name value = .error cause

/-- A write is carried out: in every buffer of that length it replaces the bytes of the field by what
is written for the value. -/
structure Writes (layout : FixedLayout) (length : Nat) (field : PlacedField) (value : Json) :
    Prop where
  /-- The layout has the field. -/
  found : layout.field field.name = .ok field
  /-- The buffer is as long as the layout. -/
  room : layout.size.toNat ≤ length
  /-- The value has the shape of the field. -/
  accepts : field.node.Accepts none value
  /-- The bytes of the field are replaced. -/
  set_eq : ∀ bytes : List UInt8, bytes.length = length →
    layout.set bytes field.name value
      = .ok (overwrite bytes field.offset.toNat (field.node.content value))

/-- In a buffer that is as long as the layout, a field that is found is encoded on its own, into as many
bytes as it has, and these are put in its place. -/
theorem set_of_found {field : PlacedField} (found : layout.field name = .ok field)
    (room : layout.size.toNat ≤ bytes.length) :
    layout.set bytes name value
      = match (field.node.encodeAt (.field .root field.name) value
          (.empty field.size.toNat .big false)).result with
        | .error cause => .error (.access cause)
        | .ok _ => .ok (Cursor.splice bytes field.offset.toNat (.bytes
          (field.node.encodeAt (.field .root field.name) value
            (.empty field.size.toNat .big false)).cursor.contents)) := by
  rw [set, after, on_update, locate, if_neg (Nat.not_lt.mpr room), found]
  dsimp only
  cases (field.node.encodeAt (.field .root field.name) value
      (.empty field.size.toNat .big false)).result with
  | error cause => rfl
  | ok written => rfl

/-- A value of the shape of its field is written into every buffer that is as long as the layout. -/
theorem Exact.writes (exact : layout.Exact) {field : PlacedField} {length : Nat}
    (found : layout.field field.name = .ok field) (room : layout.size.toNat ≤ length)
    (accepts : field.node.Accepts none value) : layout.Writes length field value := by
  obtain ⟨hfield, -⟩ := mem_of_field_eq_ok found
  obtain ⟨-, hencode⟩ := exact.content_spec hfield accepts
  obtain ⟨hresult, hcontents⟩ := hencode (.field .root field.name) field.size.toNat .big false
    (Or.inl (Nat.le_refl _))
  refine ⟨found, room, accepts, fun bytes hbytes => ?_⟩
  rw [set_of_found found (hbytes ▸ room), hresult, hcontents, splice_bytes_eq_overwrite]

/-- What is written for a value is as long as its field, which ends within the buffer. -/
theorem Exact.fits (exact : layout.Exact) {field : PlacedField} {length : Nat}
    (h : layout.Writes length field value) :
    (field.node.content value).length = field.size.toNat
      ∧ field.offset.toNat + field.size.toNat ≤ length := by
  obtain ⟨hfield, -⟩ := mem_of_field_eq_ok h.found
  exact ⟨(exact.content_spec hfield h.accepts).1, exact.within hfield h.room⟩

/-- Every write is refused or carried out, and the length of the buffer decides which. -/
theorem Exact.refuses_or_writes (exact : layout.Exact) (length : Nat) (name : String)
    (value : Json) :
    layout.Refuses length name value
      ∨ ∃ field, field.name = name ∧ layout.Writes length field value := by
  by_cases hshort : length < layout.size.toNat
  · refine Or.inl ⟨.access (.bounds (.shortBuffer length layout.size.toNat)),
      fun full hfull => ?_, ?_⟩
    · cases hfull
    · rintro bytes rfl
      rw [set, on_update, locate, if_pos hshort]
      rfl
  have hroom := Nat.le_of_not_lt hshort
  cases hfound : layout.field name with
  | error cause =>
    refine Or.inl ⟨cause, fun full hfull => ?_, ?_⟩
    · rw [FixedLayout.field, hfull] at hfound
      split at hfound
      · cases hfound
      · cases hfound
    · rintro bytes rfl
      rw [set, on_update, locate, if_neg hshort, hfound]
      rfl
  | ok field =>
    obtain ⟨hfield, rfl⟩ := mem_of_field_eq_ok hfound
    by_cases haccepts : field.node.Accepts none value
    · exact Or.inr ⟨field, rfl, exact.writes hfound hroom haccepts⟩
    · have hextent := exact.extent_eq field hfield
      have hown : RoomFor field.node.extent field.size.toNat false := Or.inl hextent.ge
      obtain ⟨cause, hresult, hcause⟩ := (exact.fixed field hfield).encodeAt_of_not_accepts
        (exact.literals field hfield) (hextent ▸ field.size.toNat_lt) haccepts hown .big
        (.field .root field.name)
      refine Or.inl ⟨.access cause, fun full hfull => ?_, fun bytes hbytes => ?_⟩
      · exact hcause full (LayoutError.access.inj hfull)
      · rw [set_of_found hfound (hbytes ▸ hroom), hresult]

/-- A write that fails has done nothing to the buffer. -/
theorem after_of_set_eq_error {cause : LayoutError}
    (h : layout.set bytes name value = .error cause) : layout.after bytes name value = bytes := by
  cases hresult : ((layout.update name value).on bytes).1 with
  | error refusal => exact layout.atomic_update name value bytes refusal hresult
  | ok =>
    rw [set, hresult] at h
    cases h

/-- A write that succeeds gives the buffer behind it. -/
theorem after_of_set_eq_ok {result : List UInt8} (h : layout.set bytes name value = .ok result) :
    layout.after bytes name value = result := by
  cases hresult : ((layout.update name value).on bytes).1 with
  | error refusal =>
    rw [set, hresult] at h
    cases h
  | ok =>
    rw [set, hresult] at h
    exact Except.ok.inj h

theorem Refuses.after_eq {length : Nat} (h : layout.Refuses length name value)
    (same : bytes.length = length) : layout.after bytes name value = bytes := by
  obtain ⟨cause, -, hset⟩ := h
  exact after_of_set_eq_error (hset bytes same)

theorem Writes.after_eq {length : Nat} {field : PlacedField} (h : layout.Writes length field value)
    (same : bytes.length = length) :
    layout.after bytes field.name value
      = overwrite bytes field.offset.toNat (field.node.content value) :=
  after_of_set_eq_ok (h.set_eq bytes same)

/-- What is read of a field depends on its own bytes, and on how many bytes there are. -/
theorem get_congr {other : List UInt8} (same : other.length = bytes.length)
    (agree : ∀ field, layout.field name = .ok field → field.slice other = field.slice bytes) :
    layout.get other name = layout.get bytes name := by
  rw [get, get, locate, locate, same]
  by_cases hshort : bytes.length < layout.size.toNat
  · rw [if_pos hshort]
    rfl
  · rw [if_neg hshort]
    cases hfound : layout.field name with
    | error cause => rfl
    | ok field =>
      simp only [bind, Except.bind, agree field hfound]

/-- A field that is read has been found, and its bytes match its node. -/
theorem exists_of_get_eq_ok (h : layout.get bytes name = .ok value) :
    layout.size.toNat ≤ bytes.length ∧ ∃ field, layout.field name = .ok field
      ∧ ∃ next, (field.node.decode none (Reader.ofBytes (field.slice bytes))).Matches value next := by
  rw [get, bind_eq_ok_iff] at h
  obtain ⟨field, hlocate, hvalue⟩ := h
  rw [locate] at hlocate
  split at hlocate
  · cases hlocate
  · rename_i hroom
    refine ⟨Nat.le_of_not_lt hroom, field, hlocate, _, ?_, rfl⟩
    cases hverdict : (field.node.decode none (Reader.ofBytes (field.slice bytes))).verdict with
    | matched other =>
      rw [hverdict] at hvalue
      rw [Except.ok.inj hvalue]
    | noMatch =>
      rw [hverdict] at hvalue
      cases hvalue
    | failed cause =>
      rw [hverdict] at hvalue
      cases hvalue

namespace Exact

variable {field other : PlacedField}

/-- Writing keeps the length of the buffer. -/
theorem length_after (exact : layout.Exact) (bytes : List UInt8) (name : String) (value : Json) :
    (layout.after bytes name value).length = bytes.length := by
  rcases exact.refuses_or_writes bytes.length name value with hrefuses | ⟨field, rfl, hwrites⟩
  · rw [hrefuses.after_eq rfl]
  · obtain ⟨hwidth, hwithin⟩ := exact.fits hwrites
    rw [hwrites.after_eq rfl]
    exact length_overwrite_of_le (hwidth ▸ hwithin)

/-- Buffers of one length refuse the same writes for the same reasons. -/
theorem set_eq_error_iff (exact : layout.Exact) {other : List UInt8}
    (same : other.length = bytes.length) {cause : LayoutError} :
    layout.set other name value = .error cause ↔ layout.set bytes name value = .error cause := by
  rcases exact.refuses_or_writes bytes.length name value with
    ⟨refusal, -, hset⟩ | ⟨field, rfl, hwrites⟩
  · rw [hset bytes rfl, hset other same]
  · rw [hwrites.set_eq bytes rfl, hwrites.set_eq other same]
    exact iff_of_false (fun h => by cases h) fun h => by cases h

/-- Reading another field gives what it gave before the write. -/
theorem get_after (exact : layout.Exact) {name another : String} (hne : name ≠ another) :
    layout.get (layout.after bytes name value) another = layout.get bytes another := by
  rcases exact.refuses_or_writes bytes.length name value with hrefuses | ⟨field, rfl, hwrites⟩
  · rw [hrefuses.after_eq rfl]
  · obtain ⟨hfield, -⟩ := mem_of_field_eq_ok hwrites.found
    obtain ⟨hwidth, hwithin⟩ := exact.fits hwrites
    refine get_congr (exact.length_after bytes _ _) fun other hfound => ?_
    obtain ⟨hother, rfl⟩ := mem_of_field_eq_ok hfound
    rw [hwrites.after_eq rfl]
    exact (exact.apart hfield hother hne).slice_overwrite hwithin hwidth

/-- Fields of different names are written in either order. -/
theorem after_comm (exact : layout.Exact) {name another : String} (hne : name ≠ another)
    (first second : Json) :
    layout.after (layout.after bytes name first) another second
      = layout.after (layout.after bytes another second) name first := by
  have hfirst := exact.length_after bytes name first
  have hsecond := exact.length_after bytes another second
  rcases exact.refuses_or_writes bytes.length name first with hrefuses | ⟨field, rfl, hwrites⟩
  · rw [hrefuses.after_eq rfl, hrefuses.after_eq hsecond]
  rcases exact.refuses_or_writes bytes.length another second with
    hrefuses | ⟨other, rfl, hwritesOther⟩
  · rw [hrefuses.after_eq rfl, hrefuses.after_eq hfirst]
  obtain ⟨hfield, -⟩ := mem_of_field_eq_ok hwrites.found
  obtain ⟨hother, -⟩ := mem_of_field_eq_ok hwritesOther.found
  obtain ⟨hwidth, hwithin⟩ := exact.fits hwrites
  obtain ⟨hwidthOther, hwithinOther⟩ := exact.fits hwritesOther
  rw [hwritesOther.after_eq hfirst, hwrites.after_eq hsecond, hwrites.after_eq rfl,
    hwritesOther.after_eq rfl]
  exact (exact.apart hfield hother hne).overwrite_comm hwithin hwithinOther hwidth hwidthOther

/-- Writing a field a second time gives what it would have given the first time. -/
theorem set_after (exact : layout.Exact) (first second : Json) :
    layout.set (layout.after bytes name first) name second = layout.set bytes name second := by
  have hlength := exact.length_after bytes name first
  rcases exact.refuses_or_writes bytes.length name first with hrefuses | ⟨field, rfl, hwrites⟩
  · rw [hrefuses.after_eq rfl]
  rcases exact.refuses_or_writes bytes.length field.name second with
    ⟨cause, -, hset⟩ | ⟨other, hname, hwritesSecond⟩
  · rw [hset bytes rfl, hset _ hlength]
  obtain rfl : field = other :=
    Except.ok.inj (hwrites.found.symm.trans (hname ▸ hwritesSecond.found))
  obtain ⟨hwidth, hwithin⟩ := exact.fits hwrites
  obtain ⟨hwidthSecond, -⟩ := exact.fits hwritesSecond
  rw [hwritesSecond.set_eq bytes rfl, hwritesSecond.set_eq _ hlength, hwrites.after_eq rfl]
  exact congrArg Except.ok (overwrite_again (hwidth ▸ hwithin) (hwidthSecond.trans hwidth.symm))

/-- The bytes of a field that is read spell its slots, and the value has the shape of its node. -/
theorem spelled_of_get (exact : layout.Exact) (found : layout.field name = .ok field)
    (read : layout.get bytes name = .ok value) :
    Spelled (field.node.slots value) (field.slice bytes) ∧ field.node.Accepts none value := by
  obtain ⟨hfield, -⟩ := mem_of_field_eq_ok found
  obtain ⟨hroom, other, hother, next, hmatch⟩ := exists_of_get_eq_ok read
  obtain rfl : field = other := Except.ok.inj (found.symm.trans hother)
  have hfixed := exact.fixed field hfield
  have hnames := exact.names field hfield
  have hconforms : field.node.Conforms none value :=
    conforms_of_matches (exact.typed field hfield) (Scope.Extends.refl _) hmatch
  obtain ⟨region, hpass, hspelled⟩ := spelled_of_matches hfixed.branchFree hnames hmatch
  -- The node takes its number of bytes, so what it passes over is all of the field.
  obtain ⟨taken, htaken, hextent⟩ := hfixed.passes_of_matches (exact.literals field hfield) hmatch
  have hsize : taken.length = (field.slice bytes).length := by
    rw [hextent, ← exact.extent_eq field hfield, length_slice (exact.within hfield hroom)]
  have hlength : region.length = (field.slice bytes).length := by
    have hregion := hpass.offset
    have hoffset := htaken.offset
    omega
  have hregion : region = field.slice bytes := by
    rw [hpass.eq_take, hlength]
    exact List.take_length
  have hfault : (field.node.plan none .root value).fault = none :=
    hconforms.fault_plan hfixed.branchFree hnames
  exact ⟨hregion ▸ hspelled, fault_plan_eq_none_iff.mp hfault⟩

/-- Writing what was read changes nothing, if it holds numbers and the slack of the field is zero. -/
theorem set_of_get (exact : layout.Exact) (found : layout.field name = .ok field)
    (read : layout.get bytes name = .ok value)
    (numbers : ∀ slot ∈ field.node.slots value, slot.isNaN = false)
    (slack : ∀ i : Nat, (slackMask (field.node.slots value))[i]? = some true →
      (field.slice bytes)[i]? = some 0) : layout.set bytes name value = .ok bytes := by
  obtain ⟨hfield, rfl⟩ := mem_of_field_eq_ok found
  obtain ⟨hroom, -⟩ := exists_of_get_eq_ok read
  obtain ⟨hspelled, haccepts⟩ := exact.spelled_of_get found read
  have hmask : (slackMask (field.node.slots value)).length = (field.slice bytes).length := by
    rw [length_slackMask, hspelled.length_eq]
  have hcontent : field.node.content value = field.slice bytes := by
    rw [content, hspelled.octets_eq numbers, clear_eq_self hmask slack]
  rw [(exact.writes found hroom haccepts).set_eq bytes rfl, hcontent,
    PlacedField.overwrite_slice (exact.within hfield hroom)]

end Exact

/-- Writing through the layout replaces the bytes of one field or nothing. -/
structure WritesFields (layout : FixedLayout) (bytes : List UInt8) : Prop where
  /-- A write that fails leaves the buffer as it was, and does not fail for want of room. -/
  failed : ∀ name value cause, layout.set bytes name value = .error cause →
    layout.after bytes name value = bytes ∧ ∀ full, cause ≠ .access (.capacity full)
  /-- A write that succeeds puts down what encoding the value with the node of the field gives, in all
  bytes of the field and in no others. -/
  written : ∀ name value result, layout.set bytes name value = .ok result →
    layout.after bytes name value = result ∧ result.length = bytes.length
      ∧ ∃ field content, layout.field name = .ok field ∧ content.length = field.size.toNat
        ∧ (∀ path capacity order growable, RoomFor field.size.toNat capacity growable →
          (field.node.encodeAt path value (.empty capacity order growable)).result
              = .ok field.size.toNat
            ∧ (field.node.encodeAt path value (.empty capacity order growable)).cursor.contents
              = content)
        ∧ field.slice result = content
        ∧ ∀ i, i < field.offset.toNat ∨ field.offset.toNat + field.size.toNat ≤ i →
          result[i]? = bytes[i]?
  /-- Other fields are read as before. -/
  others : ∀ name another value, name ≠ another →
    layout.get (layout.after bytes name value) another = layout.get bytes another
  /-- Two fields are written in either order, and neither write decides whether or why the other
  fails. -/
  commute : ∀ name another first second, name ≠ another →
    layout.after (layout.after bytes name first) another second
        = layout.after (layout.after bytes another second) name first
      ∧ ∀ cause, layout.set (layout.after bytes name first) another second = .error cause ↔
        layout.set bytes another second = .error cause
  /-- A second write of a field gives what it gives without the first. -/
  again : ∀ name first second,
    layout.set (layout.after bytes name first) name second = layout.set bytes name second
  /-- Writing what was read changes nothing, if it holds numbers and the slack of the field is zero. -/
  back : ∀ name value, layout.get bytes name = .ok value →
    ∃ field, layout.field name = .ok field
      ∧ (slackMask (field.node.slots value)).length = field.size.toNat
      ∧ ((∀ slot ∈ field.node.slots value, slot.isNaN = false) →
        (∀ i : Nat, (slackMask (field.node.slots value))[i]? = some true →
          (field.slice bytes)[i]? = some 0) →
        layout.set bytes name value = .ok bytes)

/-- Writing through the layout of a compiled schema replaces the bytes of one field or nothing, as long
as literal lengths are not rounded and the widths add up to less than the number of words. -/
theorem set_writes_field {description : Json} {node : Node} (distinct : description.DistinctKeys)
    (compiled : compile description = .ok node) (built : ofNode node = .ok layout)
    (literals : node.All LiteralExact) (width : node.extent < wordCount) (bytes : List UInt8) :
    layout.WritesFields bytes := by
  have exact := exact_of_ofNode distinct compiled built literals width
  refine ⟨?_, ?_, ?_, ?_, ?_, ?_⟩
  · intro name value cause hfailed
    rcases exact.refuses_or_writes bytes.length name value with
      ⟨refusal, hroom, hset⟩ | ⟨field, rfl, hwrites⟩
    · obtain rfl : refusal = cause := Except.error.inj ((hset bytes rfl).symm.trans hfailed)
      exact ⟨after_of_set_eq_error hfailed, hroom⟩
    · rw [hwrites.set_eq bytes rfl] at hfailed
      cases hfailed
  · intro name value result hresult
    have hafter := after_of_set_eq_ok hresult
    rcases exact.refuses_or_writes bytes.length name value with
      ⟨cause, -, hset⟩ | ⟨field, rfl, hwrites⟩
    · rw [hset bytes rfl] at hresult
      cases hresult
    · obtain ⟨hfield, -⟩ := mem_of_field_eq_ok hwrites.found
      obtain ⟨hwidth, hwithin⟩ := exact.fits hwrites
      obtain ⟨-, hencode⟩ := exact.content_spec hfield hwrites.accepts
      refine ⟨hafter, hafter ▸ exact.length_after bytes _ _, field, _, hwrites.found, hwidth,
        hencode, ?_, fun i hi => ?_⟩
      · rw [← hafter, hwrites.after_eq rfl]
        exact PlacedField.slice_overwrite hwithin hwidth
      · rw [← hafter, hwrites.after_eq rfl, getElem?_overwrite (hwidth ▸ hwithin), hwidth,
          if_neg (by omega)]
  · exact fun name another value hne => exact.get_after hne
  · exact fun name another first second hne => ⟨exact.after_comm hne first second, fun cause =>
      exact.set_eq_error_iff (exact.length_after bytes name first)⟩
  · exact fun name first second => exact.set_after first second
  · intro name value hread
    obtain ⟨hroom, field, hfound, -⟩ := exists_of_get_eq_ok hread
    obtain ⟨hfield, -⟩ := mem_of_field_eq_ok hfound
    obtain ⟨hspelled, -⟩ := exact.spelled_of_get hfound hread
    refine ⟨field, hfound, ?_, exact.set_of_get hfound hread⟩
    rw [length_slackMask, ← hspelled.length_eq, length_slice (exact.within hfield hroom)]

/-- A buffer with slack in its numbers and behind the text. -/
def textAndNumbersBytes : List UInt8 :=
  [0x61, 0, 9, 9, 9, 9, 9, 9, 0, 1, 0, 0, 0, 2, 0, 0]

/-- The numbers of the layout. -/
def numbersField : PlacedField :=
  ⟨"xs", 8, 8, array (leaf (.scalar ⟨.uint16, .big, 4, none⟩)) (.literal 2)⟩

/-- Another text leaves the numbers as they are read, and writing the numbers that are read changes
nothing. -/
theorem set_writes_field_textAndNumbers :
    textAndNumbersLayout.get (textAndNumbersLayout.after textAndNumbersBytes "s" (.string "xyz")) "xs"
        = textAndNumbersLayout.get textAndNumbersBytes "xs"
      ∧ textAndNumbersLayout.set textAndNumbersBytes "xs"
          (.array [.number (.unsigned 1), .number (.unsigned 2)]) = .ok textAndNumbersBytes := by
  have writes : textAndNumbersLayout.WritesFields textAndNumbersBytes :=
    set_writes_field distinctKeys_textAndNumbersDescription compile_textAndNumbersDescription
      ofNode_textAndNumbersNode literalExact_textAndNumbersNode (by decide) textAndNumbersBytes
  refine ⟨writes.others _ _ _ (by decide), ?_⟩
  have hread : textAndNumbersLayout.get textAndNumbersBytes "xs"
      = .ok (.array [.number (.unsigned 1), .number (.unsigned 2)]) :=
    eq_ok_of_toOption (by decide +kernel)
  obtain ⟨field, hfound, -, hback⟩ := writes.back _ _ hread
  obtain rfl : field = numbersField := Except.ok.inj hfound.symm
  have hslack : ∀ i < 8, (slackMask (numbersField.node.slots
      (.array [.number (.unsigned 1), .number (.unsigned 2)])))[i]? = some true →
        (numbersField.slice textAndNumbersBytes)[i]? = some 0 := by
    decide +kernel
  exact hback (by decide +kernel) fun i hi =>
    hslack i (List.getElem?_eq_some_iff.mp hi).1 hi

end FixedLayout

end ByteRecord
