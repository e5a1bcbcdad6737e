import ByteRecord.Proofs.Decode.Record
import ByteRecord.Proofs.Decode.Relocation

/-!
# Decoding a front of a record

Without branches, and where no length looks at the end of the data, a record needs exactly the bytes
that it takes: it is decoded from them alone, and whatever is cut off at their end is missed. `Needs`
says so of some bytes and the value that they give, and it is built up along the way a decoder is put
together. Wherever the cut falls, what stands before it is decoded as before, and the first read that
reaches beyond it fails.
-/

namespace ByteRecord

/-- Decoding needs these bytes, and no others, for the value. -/
structure Needs {α : Type} (decode : Reader → Outcome α) (bytes : List UInt8) (value : α) :
    Prop where
  /-- The bytes give the value wherever they stand. -/
  matched (r next : Reader) : r.Passes bytes next → (decode r).Matches value next
  /-- Where only a front of them is left, bytes are missing. -/
  short (r : Reader) (missing : List UInt8) : bytes = r.rest ++ missing → missing ≠ [] →
    ∃ cause, (decode r).Fails (.bounds cause)

/-- A cut through two runs of bytes falls into the first of them, or the first is there and the cut
falls into the second. -/
theorem cut_cases {bytes more rest missing : List UInt8} (h : bytes ++ more = rest ++ missing) :
    (∃ lost, lost ≠ [] ∧ bytes = rest ++ lost)
      ∨ ∃ behind, rest = bytes ++ behind ∧ more = behind ++ missing := by
  rcases List.append_eq_append_iff.mp h with ⟨behind, hrest, hmore⟩ | ⟨lost, hbytes, hmissing⟩
  · exact Or.inr ⟨behind, hrest, hmore⟩
  · by_cases hlost : lost = []
    · rw [hlost, List.append_nil] at hbytes
      rw [hlost, List.nil_append] at hmissing
      exact Or.inr ⟨[], by rw [hbytes, List.append_nil], hmissing.symm⟩
    · exact Or.inl ⟨lost, hlost, hbytes⟩

namespace Needs

variable {α β : Type} {decode : Reader → Outcome α} {bytes more : List UInt8} {value : α}

/-- A value at hand needs no bytes. -/
theorem nothing (value : α) : Needs (Outcome.matched value) [] value := by
  refine ⟨fun r next h => ?_, fun r missing h hmissing => ?_⟩
  · rw [h.eq_advance]
    exact Outcome.matched_matches
  · exact absurd (List.append_eq_nil_iff.mp h.symm).2 hmissing

/-- A sequence needs what its parts need, one behind the other. -/
theorem andThen {f : α → Reader → Outcome β} {result : β} (first : Needs decode bytes value)
    (second : Needs (f value) more result) :
    Needs (fun r => (decode r).andThen f) (bytes ++ more) result := by
  refine ⟨fun r next h => ?_, fun r missing h hmissing => ?_⟩
  · obtain ⟨mid, hfirst, hsecond⟩ := h.split
    have hvalue := first.matched r mid hfirst
    exact Outcome.andThen_matches_iff.mpr ⟨value, mid, hvalue, second.matched mid next hsecond⟩
  · rcases cut_cases h with ⟨lost, hlost, hfront⟩ | ⟨behind, hrest, hmore⟩
    · obtain ⟨cause, hcause⟩ := first.short r lost hfront hlost
      exact ⟨cause, Outcome.andThen_fails_iff.mpr (Or.inl hcause)⟩
    · have hvalue := first.matched r ⟨r.offset + bytes.length, behind⟩ ⟨hrest, rfl⟩
      obtain ⟨cause, hcause⟩ := second.short ⟨_, behind⟩ missing hmore hmissing
      exact ⟨cause, Outcome.andThen_fails_iff.mpr (Or.inr ⟨value, _, hvalue, hcause⟩)⟩

theorem map (h : Needs decode bytes value) (f : α → β) :
    Needs (fun r => (decode r).map f) bytes (f value) := by
  have hmap : Needs (fun r => (decode r).andThen fun value r => .matched (f value) r)
      (bytes ++ []) (f value) := h.andThen (nothing (f value))
  rwa [List.append_nil] at hmap

/-- Events that are reported need no bytes. -/
theorem noting (h : Needs decode bytes value) (event : Event) :
    Needs (fun r => (decode r).noting event) bytes value := by
  refine ⟨fun r next hpass => ?_, fun r missing hbytes hmissing => ?_⟩
  · exact Outcome.noting_matches_iff.mpr (h.matched r next hpass)
  · obtain ⟨cause, hcause⟩ := h.short r missing hbytes hmissing
    exact ⟨cause, Outcome.noting_fails_iff.mpr hcause⟩

/-- Where bytes are missing, the demand is not even looked at. -/
theorem demanding (h : Needs decode bytes value) {admits : α → Bool} (met : admits value = true)
    (event : Reader → α → Event) :
    Needs (fun r => (decode r).demanding admits (event r)) bytes value := by
  refine ⟨fun r next hpass => ?_, fun r missing hbytes hmissing => ?_⟩
  · exact Outcome.demanding_matches_iff.mpr ⟨h.matched r next hpass, met⟩
  · obtain ⟨cause, hcause⟩ := h.short r missing hbytes hmissing
    exact ⟨cause, Outcome.demanding_fails_iff.mpr hcause⟩

/-- A read needs the bytes that spell its value. -/
theorem ofRead {read : Reader → Except BoundsError (α × Reader)}
    {spells : List UInt8 → α → Prop} (h : Local read spells) (hspells : spells bytes value) :
    Needs (fun r => Outcome.ofRead r (read r)) bytes value := by
  refine ⟨fun r next hpass => ?_, fun r missing hbytes hmissing => ?_⟩
  · exact Outcome.ofRead_matches_iff.mpr ((h.eq_ok_iff r value next).mpr ⟨bytes, hpass, hspells⟩)
  · cases hread : read r with
    | error cause => exact ⟨cause, Outcome.ofRead_fails_iff.mpr ⟨cause, rfl, rfl⟩⟩
    | ok result =>
      -- Bytes that stand before the cut would be read on their own, and go on to spell the value.
      obtain ⟨front, hfront, hother⟩ := (h.eq_ok_iff r result.1 result.2).mp hread
      rw [hbytes, hfront.rest, List.append_assoc] at hspells
      have hnone := h.delimited _ _ _ _ hother hspells
      exact absurd (List.append_eq_nil_iff.mp hnone).2 hmissing

theorem skipping (h : Needs decode bytes value) {fill : List UInt8} {count : Nat}
    (hfill : fill.length = count) : Needs (fun r => (decode r).skipping count) (bytes ++ fill) value := by
  refine h.andThen ?_
  by_cases hcount : count = 0
  · rw [hcount, List.length_eq_zero_iff] at hfill
    simpa only [hcount, hfill, if_true] using nothing value
  · simpa only [hcount, if_false] using ofRead (Local.skip value count) ⟨hfill, rfl⟩

end Needs

/-- The bytes of a slot are needed for its value. -/
theorem Tag.Spells.needs {tag : Tag} {slot : List UInt8} {value : Json} (h : tag.Spells slot value) :
    Needs (fun r => tag.decode r) slot value := by
  cases h with
  | scalar width padding admits =>
    rename_i tag content fill
    have hread := Needs.ofRead (Local.scalar tag.type tag.order) ⟨width, rfl⟩
    exact (((hread.map Scalar.toNumber).skipping padding).demanding admits _).map Json.number
  | string width admits =>
    have hread := Needs.ofRead (Local.fixedText _) ⟨width, rfl⟩
    exact ((hread.map fieldText).demanding admits _).map Json.string
  | padded bounded width admits =>
    have hread := Needs.ofRead (Local.terminatedText (TextTag.toNat_paddedTo_ne_zero bounded))
      ⟨width, rfl⟩
    exact ((hread.map fieldText).demanding admits _).map Json.string
  | terminated unbounded free admits =>
    have hread := Needs.ofRead Local.terminatedText_zero ⟨free, rfl⟩
    simp only [Tag.decode, unbounded]
    exact ((hread.map fieldText).demanding admits _).map Json.string

/-- Every match needs the bytes that it passes. -/
def NeedsAll (decode : Reader → Outcome Json) : Prop :=
  ∀ r value next, (decode r).Matches value next →
    ∃ bytes, r.Passes bytes next ∧ Needs decode bytes value

variable {decode : Reader → Outcome Json} {r next : Reader}

/-- So many elements need the bytes of each. -/
theorem Run.needs {items : List Json} (run : Run decode r items next) (each : NeedsAll decode)
    (total : Nat) :
    ∃ bytes, r.Passes bytes next ∧ Needs (Outcome.repeated decode total items.length) bytes items := by
  induction run with
  | nil => exact ⟨[], Reader.passes_nil _, Needs.nothing []⟩
  | cons first rest ih =>
    obtain ⟨front, hfront, hfirst⟩ := each _ _ _ first
    obtain ⟨behind, hbehind, hrest⟩ := ih
    exact ⟨front ++ behind, hfront.append hbehind,
      (hfirst.noting _).andThen (hrest.map (_ :: ·))⟩

/-- Fields need the bytes of each. -/
theorem FieldRun.needs {done added : Members} {fields : List (String × Node)}
    (run : FieldRun done fields r added next)
    (each : ∀ field ∈ fields, ∀ scope, NeedsAll (field.2.decode scope)) :
    ∃ bytes, r.Passes bytes next ∧ Needs (Node.decodeFields done fields) bytes (done ++ added) := by
  induction run with
  | nil =>
    rw [List.append_nil]
    exact ⟨[], Reader.passes_nil _, Needs.nothing _⟩
  | cons first rest ih =>
    obtain ⟨heach, hothers⟩ := List.forall_mem_cons.mp each
    obtain ⟨front, hfront, hfirst⟩ := heach _ _ _ _ first
    obtain ⟨behind, hbehind, hrest⟩ := ih hothers
    rw [List.append_assoc, List.singleton_append] at hrest
    exact ⟨front ++ behind, hfront.append hbehind, (hfirst.noting _).andThen hrest⟩

namespace Node

/-- Without branches, and where no length looks at the end of the data, a match needs all its
bytes. -/
theorem needsAll_decode {node : Node} (branchFree : node.BranchFree) (known : node.CountsKnown)
    (scope : Scope) : NeedsAll (node.decode scope) := by
  induction node generalizing scope with
  | leaf tag =>
    intro r value next h
    rw [decode] at h
    obtain ⟨slot, hslot, hspells⟩ := Tag.decode_matches_iff.mp h
    exact ⟨slot, hslot, decode_leaf tag ▸ hspells.needs⟩
  | array element length ih =>
    intro r value next h
    obtain ⟨items, count?, rfl, run, hresolve, hcount⟩ := decode_array_matches h
    cases count? with
    | none => exact absurd hresolve (Length.resolve_ne_none known.here _)
    | some count =>
      have hlength : items.length = count := hcount count rfl
      subst hlength
      rw [Length.resolve_eq_evaluate known.here] at hresolve
      have hsame : ∀ remaining, length.resolve scope remaining = .ok (some items.length) :=
        fun remaining => (Length.resolve_eq_evaluate known.here _).trans hresolve
      cases hplain : element.plainScalar? with
      | none =>
        have helement := ih branchFree.element known.element scope
        obtain ⟨bytes, hpass, hneeds⟩ := run.needs helement items.length
        exact ⟨bytes, hpass, decode_array_of_not_plain hsame hplain ▸ hneeds.map Json.array⟩
      | some tag =>
        obtain ⟨bytes, hpass, hlength, hitems⟩ := (run_plain_iff hplain).mp run
        have hread := Needs.ofRead (Local.scalars tag.type tag.order items.length) ⟨hlength, rfl⟩
        have hneeds := hread.map fun values =>
          Json.array (values.map fun value => .number value.toNumber)
        rw [hitems] at hneeds
        exact ⟨bytes, hpass, decode_array_of_plain hsame hplain ▸ hneeds⟩
  | branch alternatives ih => exact absurd branchFree BranchFree.not_branch
  | struct fields ih =>
    intro r value next h
    obtain ⟨members, rfl, run⟩ := decode_struct_matches_iff.mp h
    obtain ⟨bytes, hpass, hneeds⟩ := run.needs fun field hfield scope =>
      ih field hfield (branchFree.field hfield) (known.field hfield) scope
    exact ⟨bytes, hpass, decode_struct fields ▸ hneeds.map Json.object⟩

/-- Of the bytes of a record none can be spared: any front of them is too short, and all of them
together are enough. -/
theorem decodeRecord_take {node : Node} {bytes : List UInt8} {wholly : Bool} {label : String}
    {record : Json} {stop consumed : Nat} (branchFree : node.BranchFree) (known : node.CountsKnown)
    (h : (node.decodeRecord ⟨0, wholly, label⟩ bytes).1 = .ok ⟨some record, stop, consumed⟩) :
    (∀ count < consumed, ∃ cause,
        (node.decodeRecord ⟨0, wholly, label⟩ (bytes.take count)).1 = .error (.bounds cause))
      ∧ (node.decodeRecord ⟨0, wholly, label⟩ (bytes.take consumed)).1
          = .ok ⟨some record, consumed, consumed⟩ := by
  obtain ⟨-, next, hmatch, -, -, hconsumed⟩ := decodeRecord_eq_ok_some_iff.mp h
  obtain ⟨taken, hpass, hneeds⟩ := needsAll_decode branchFree known none _ _ _ hmatch
  have hbytes : bytes = taken ++ next.rest := hpass.rest
  have hlength : taken.length = consumed := by
    have hoffset := hpass.offset
    simp only [Reader.ofBytes, Reader.advance] at hoffset
    dsimp only at hconsumed
    omega
  have htaken : ∀ count ≤ consumed, bytes.take count = taken.take count := fun count hcount => by
    rw [hbytes, List.take_append_of_le_length (hlength ▸ hcount)]
  constructor
  · intro count hcount
    have hlost : taken.drop count ≠ [] := by
      rw [ne_eq, List.drop_eq_nil_iff]
      omega
    obtain ⟨cause, hcause⟩ := hneeds.short ((Reader.ofBytes (taken.take count)).advance 0) _
      (List.take_append_drop count taken).symm hlost
    rw [htaken count (Nat.le_of_lt hcount)]
    exact ⟨cause, decodeRecord_eq_error_iff.mpr (Or.inr ⟨Nat.zero_le _, hcause⟩)⟩
  · have hwhole : ((Reader.ofBytes taken).advance 0).Passes taken ⟨consumed, []⟩ := by
      refine ⟨(List.append_nil taken).symm, ?_⟩
      simp only [Reader.ofBytes, Reader.advance]
      omega
    rw [htaken consumed (Nat.le_refl _), List.take_of_length_le (Nat.le_of_eq hlength)]
    exact decodeRecord_eq_ok_some_iff.mpr
      ⟨Nat.zero_le _, _, hneeds.matched _ _ hwhole, fun _ => rfl, rfl, rfl⟩

/-- A count of texts, the texts and a padded number. -/
def textsNode : Node :=
  struct [
    ("n", leaf (.scalar ⟨.uint8, .big, 0, some ⟨.integer 3, true⟩⟩)),
    ("texts", array (leaf (.cstring ⟨0, none⟩)) (.field "n")),
    ("last", leaf (.scalar ⟨.int8, .big, 2, none⟩))]

/-- A property of the three kinds of nodes in that schema holds of all its nodes. -/
theorem all_textsNode {p : Node → Prop} (hstruct : p textsNode)
    (harray : p (array (leaf (.cstring ⟨0, none⟩)) (.field "n"))) (hleaf : ∀ tag, p (leaf tag)) :
    textsNode.All p := by
  refine .struct hstruct ?_
  simp only [List.forall_mem_cons]
  exact ⟨.leaf (hleaf _), .array harray (.leaf (hleaf _)), .leaf (hleaf _), List.forall_mem_nil _⟩

/-- A cut within the second text and one within the padding are missed, a cut behind the record is
not. -/
theorem decodeRecord_take_texts :
    (∃ cause, (textsNode.decodeRecord ⟨0, false, ""⟩ [2, 0x61, 0, 0x62]).1
        = .error (.bounds cause))
      ∧ (∃ cause, (textsNode.decodeRecord ⟨0, false, ""⟩ [2, 0x61, 0, 0x62, 0x63, 0, 255]).1
        = .error (.bounds cause))
      ∧ (textsNode.decodeRecord ⟨0, false, ""⟩ [2, 0x61, 0, 0x62, 0x63, 0, 255, 9]).1
        = .ok ⟨some (.object [("n", .number (.unsigned 2)),
            ("texts", .array [.string "a", .string "bc"]), ("last", .number (.signed (-1)))]),
          8, 8⟩ := by
  have hwhole : (textsNode.decodeRecord ⟨0, false, ""⟩
      [2, 0x61, 0, 0x62, 0x63, 0, 255, 9, 7]).1
      = .ok ⟨some (.object [("n", .number (.unsigned 2)),
          ("texts", .array [.string "a", .string "bc"]), ("last", .number (.signed (-1)))]),
        8, 8⟩ := eq_ok_of_toOption (by decide +kernel)
  obtain ⟨hshort, htaken⟩ := decodeRecord_take (all_textsNode trivial trivial fun _ => trivial)
    (all_textsNode trivial trivial fun _ => trivial) hwhole
  have htext := hshort 4 (by decide)
  have hpadding := hshort 7 (by decide)
  simp only [List.take_succ_cons, List.take_zero] at htext hpadding htaken
  exact ⟨htext, hpadding, htaken⟩

end Node

end ByteRecord
