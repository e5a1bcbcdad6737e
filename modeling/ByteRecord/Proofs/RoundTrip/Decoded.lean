import ByteRecord.Proofs.Encode.Conforming
import ByteRecord.Proofs.Encode.Writing
import ByteRecord.Proofs.Record.Spelling
import ByteRecord.Proofs.RoundTrip.Slack

/-!
# Encoding a decoded record

A record that was decoded from some bytes is encoded into the same bytes, except that slack becomes
zero. Decoding finds the slots of the record in the bytes and leaves a record that conforms to the
schema; encoding a conforming record writes its slots; and a slot is written as it was read.
-/

namespace ByteRecord

/-- What stands at a place of cleared bytes. -/
theorem getElem?_clear {mask : List Bool} {bytes : List UInt8} (h : mask.length = bytes.length)
    (i : Nat) :
    (clear mask bytes)[i]? = if mask[i]? = some true then some 0 else bytes[i]? := by
  rw [clear, List.getElem?_zipWith]
  by_cases hi : i < bytes.length
  · have hmask : i < mask.length := h ▸ hi
    rw [List.getElem?_eq_getElem hi, List.getElem?_eq_getElem hmask]
    cases mask[i] with
    | true => rfl
    | false => rfl
  · have hmask : mask[i]? = none := List.getElem?_eq_none (h ▸ Nat.le_of_not_lt hi)
    rw [hmask, List.getElem?_eq_none (Nat.le_of_not_lt hi)]
    rfl

/-- Bytes whose slack is zero are not changed by clearing it. -/
theorem clear_eq_self {mask : List Bool} {bytes : List UInt8} (h : mask.length = bytes.length)
    (hzero : ∀ i : Nat, mask[i]? = some true → bytes[i]? = some 0) : clear mask bytes = bytes := by
  refine List.ext_getElem? fun i => ?_
  rw [getElem?_clear h]
  split
  · rename_i hslack
    exact (hzero i hslack).symm
  · rfl

/-- The bytes behind an offset, as a reader passes them. -/
theorem Reader.Passes.getElem?_eq {bytes region : List UInt8} {offset i : Nat} {next : Reader}
    (h : ((ofBytes bytes).advance offset).Passes region next) (hi : i < region.length) :
    region[i]? = bytes[offset + i]? := by
  have hrest : bytes.drop offset = region ++ next.rest := h.rest
  rw [← List.getElem?_drop, hrest, List.getElem?_append_left hi]

namespace Node

variable {description : Json} {node : Node} {bytes : List UInt8} {options : DecodeOptions}
  {record : Json} {stop n : Nat}

/-- Encoding a decoded record gives back the bytes that it was decoded from, with zeros in place of
slack. If the slack was zero, the bytes are the same. -/
theorem encode_decoded (distinct : description.DistinctKeys)
    (compiled : compile description = .ok node) (branchFree : node.BranchFree)
    (short : bytes.length < 2 ^ 53)
    (decoded : (node.decodeRecord options bytes).1 = .ok ⟨some record, stop, n⟩)
    (numbers : ∀ slot ∈ node.slots record, slot.isNaN = false) (capacity : Nat) (order : Endian) :
    ∃ out, (node.encode record capacity order).1 = .ok ⟨out, n⟩ ∧ out.length = n
      ∧ (slackMask (node.slots record)).length = n
      ∧ (∀ i < n, out[i]? = if (slackMask (node.slots record))[i]? = some true then some 0
          else bytes[options.offset + i]?)
      ∧ ((∀ i : Nat, (slackMask (node.slots record))[i]? = some true →
          bytes[options.offset + i]? = some 0) → out = (bytes.drop options.offset).take n) := by
  obtain ⟨hoffset, next, hmatch, -, -, hn⟩ := decodeRecord_eq_ok_some_iff.mp decoded
  have names := distinctNames_of_compile distinct compiled
  obtain ⟨region, hpass, hspelled⟩ := spelled_of_matches branchFree names hmatch
  have hlength : region.length = n := by
    have hstart : ((Reader.ofBytes bytes).advance options.offset).offset = options.offset :=
      Nat.zero_add _
    rw [hn, hpass.offset, hstart, Nat.add_sub_cancel_left]
  have hmask : (slackMask (node.slots record)).length = region.length := by
    rw [length_slackMask, hspelled.length_eq]
  have hfault : (node.plan none .root record).fault = none :=
    (conforms_of_matches (typed_of_compile compiled) (Scope.Extends.refl _) hmatch).fault_plan
      branchFree names
  have hoctets : (node.plan none .root record).octets
      = clear (slackMask (node.slots record)) region := by
    rw [(covers_plan hfault).octets_eq, hspelled.octets_eq numbers]
  have hsize : (node.plan none .root record).octets.length = n := by
    rw [hoctets, length_clear hmask, hlength]
  have hbound : n ≤ signedBound := by
    have hle := hpass.length_le
    have hremaining : ((Reader.ofBytes bytes).advance options.offset).remaining
        = bytes.length - options.offset := List.length_drop
    rw [signedBound]
    omega
  have hencode := encode_eq_ok hfault (hsize ▸ hbound) capacity order
  rw [hsize, hoctets] at hencode
  refine ⟨_, hencode, ?_, hmask.trans hlength, ?_, ?_⟩
  · rw [length_clear hmask, hlength]
  · intro i hi
    rw [getElem?_clear hmask, hpass.getElem?_eq (hlength ▸ hi)]
  · intro hzero
    have hregion : region = (bytes.drop options.offset).take n := by
      rw [← hlength]
      exact hpass.eq_take
    rw [← hregion]
    refine clear_eq_self hmask fun i hslack => ?_
    have hi : i < region.length := by
      rw [← hmask]
      exact (List.getElem?_eq_some_iff.mp hslack).1
    rw [hpass.getElem?_eq hi]
    exact hzero i hslack

/-- Describes a number and a text with slack behind them, and as many numbers as the first says. -/
def paddedDescription : Json :=
  .object [("n", .string "uint8:2"), ("text", .string "cstring:4"),
    ("rest", .array [.string "float32", .string "n"])]

/-- The schema of that description. -/
def paddedNode : Node :=
  struct [("n", leaf (.scalar ⟨.uint8, .big, 2, none⟩)), ("text", leaf (.cstring ⟨4, none⟩)),
    ("rest", array (leaf (.scalar ⟨.float32, .big, 0, none⟩)) (.field "n"))]

/-- A record of that schema. -/
def paddedRecord : Json :=
  .object [("n", .number (.unsigned 1)), ("text", .string "a"),
    ("rest", .array [.number (.real ⟨0x3FF8000000000000⟩)])]

theorem compile_paddedDescription : compile paddedDescription = .ok paddedNode := rfl

theorem distinctKeys_paddedDescription : paddedDescription.DistinctKeys := by
  refine .object (by decide) ?_
  simp only [List.forall_mem_cons]
  refine ⟨.string, .string, .array ?_, List.forall_mem_nil _⟩
  simp only [List.forall_mem_cons]
  exact ⟨.string, .string, List.forall_mem_nil _⟩

theorem branchFree_paddedNode : paddedNode.BranchFree := by
  refine .struct trivial ?_
  simp only [List.forall_mem_cons]
  exact ⟨.leaf trivial, .leaf trivial, .array trivial (.leaf trivial), List.forall_mem_nil _⟩

/-- Read from the second byte on and written again, only the slack changes. -/
theorem encode_decoded_padded :
    ∃ out, (paddedNode.encode paddedRecord 0 .little).1 = .ok ⟨out, 10⟩
      ∧ out[1]? = some 0 ∧ out[2]? = some 0x61 ∧ out[5]? = some 0 ∧ out[6]? = some 0x3F := by
  have decoded : (paddedNode.decodeRecord ⟨1, false, ""⟩
      [9, 1, 7, 0x61, 0, 0x7A, 0x7A, 0x3F, 0xC0, 0, 0, 5]).1
        = .ok ⟨some paddedRecord, 11, 10⟩ :=
    eq_ok_of_toOption (by decide +kernel)
  obtain ⟨out, hout, -, -, hbytes, -⟩ := encode_decoded distinctKeys_paddedDescription
    compile_paddedDescription branchFree_paddedNode (by decide) decoded (by decide +kernel) 0 .little
  exact ⟨out, hout, (hbytes 1 (by decide)).trans (by decide +kernel),
    (hbytes 2 (by decide)).trans (by decide +kernel),
    (hbytes 5 (by decide)).trans (by decide +kernel),
    (hbytes 6 (by decide)).trans (by decide +kernel)⟩

end Node

end ByteRecord
