import ByteRecord.Proofs.Encode.Filling
import ByteRecord.Proofs.Encode.Splicing
import ByteRecord.Proofs.FixedLayout.Reading

/-!
# The width of a node

A width is worked out from the schema alone, and is true of every use of it. Decoding and encoding
follow the same tree by recursions of their own: a slot takes its size whatever value it holds, a
literal count multiplies, and fields add up. Demands decide whether a value matches, never how many
bytes it takes.
-/

namespace ByteRecord

variable {r next : Reader} {width : Nat}

/-- A run of values of one width takes it as often as there are values. -/
theorem Run.passes_width {decode : Reader → Outcome Json} {values : List Json}
    (run : Run decode r values next)
    (each : ∀ r value next, (decode r).Matches value next →
      ∃ bytes, r.Passes bytes next ∧ bytes.length = width) :
    ∃ bytes, r.Passes bytes next ∧ bytes.length = values.length * width := by
  induction run with
  | nil => exact ⟨[], Reader.passes_nil _, (Nat.zero_mul width).symm⟩
  | cons first rest ih =>
    obtain ⟨before, hbefore, hfirst⟩ := each _ _ _ first
    obtain ⟨behind, hbehind, hrest⟩ := ih
    refine ⟨before ++ behind, hbefore.append hbehind, ?_⟩
    rw [List.length_append, List.length_cons, Nat.succ_mul, hfirst, hrest, Nat.add_comm]

/-- A run of fields takes what each of them takes. -/
theorem FieldRun.passes_extent {done added : Members} {fields : List (String × Node)}
    (run : FieldRun done fields r added next)
    (each : ∀ field ∈ fields, ∀ scope r value next,
      (field.2.decode scope r).Matches value next →
        ∃ bytes, r.Passes bytes next ∧ bytes.length = field.2.extent) :
    ∃ bytes, r.Passes bytes next ∧ bytes.length = Node.fieldsExtent fields := by
  induction run with
  | nil => exact ⟨[], Reader.passes_nil _, rfl⟩
  | cons first rest ih =>
    obtain ⟨hfield, hfields⟩ := List.forall_mem_cons.mp each
    obtain ⟨before, hbefore, hfirst⟩ := hfield _ _ _ _ first
    obtain ⟨behind, hbehind, hrest⟩ := ih hfields
    refine ⟨before ++ behind, hbefore.append hbehind, ?_⟩
    rw [List.length_append, Node.fieldsExtent, hfirst, hrest]

namespace Node

variable {node : Node}

/-- What matches a fixed node takes its number of bytes, whether or not something is demanded. -/
theorem Fixed.passes_of_matches (fixed : node.Fixed) (literals : node.All LiteralExact)
    {scope : Scope} {value : Json} (h : (node.decode scope r).Matches value next) :
    ∃ bytes, r.Passes bytes next ∧ bytes.length = node.extent := by
  induction node generalizing scope r value next with
  | leaf tag =>
    cases fixed with
    | leaf width =>
      rw [decode] at h
      obtain ⟨slot, hpass, hspells⟩ := Tag.decode_matches_iff.mp h
      refine ⟨slot, hpass, ?_⟩
      rw [hspells.length_eq, Slot.size_eq_extent width, extent]
  | array element length ih =>
    cases fixed with
    | array nonneg below =>
      obtain ⟨items, count?, rfl, run, hresolve, hsize⟩ := decode_array_matches h
      rw [Length.resolve_of_evaluate (Length.evaluate_literal nonneg literals.here scope)] at hresolve
      have hcount := hsize _ (Except.ok.inj hresolve).symm
      rw [extent, ← hcount]
      exact run.passes_width fun r value next hitem => ih below literals.element hitem
  | branch alternatives ih => cases fixed
  | struct fields ih =>
    cases fixed with
    | struct below =>
      obtain ⟨members, rfl, run⟩ := decode_struct_matches_iff.mp h
      rw [extent]
      exact run.passes_extent fun field hfield scope r value next hvalue =>
        ih field hfield (below field hfield) (literals.field hfield) hvalue

/-- Every use of the node takes `width` bytes. -/
structure Measures (node : Node) (width : Nat) : Prop where
  /-- Whatever matches takes so many bytes, wherever it stands. -/
  decoded : ∀ scope r value next, (node.decode scope r).Matches value next →
    ∃ bytes, r.Passes bytes next ∧ bytes.length = width
  /-- A value that is encoded in the course of a record is written in so many bytes. -/
  planned : ∀ scope path value, (node.plan scope path value).fault = none →
    (node.plan scope path value).octets.length = width
  /-- A value that is encoded where a cursor stands is written there in so many bytes. -/
  encoded : ∀ path value (c : Cursor) written, c.Within →
    (node.encodeAt path value c).result = .ok written →
      written = width ∧ ∃ content, content.length = width
        ∧ c.Wrote content (node.encodeAt path value c).cursor
  /-- If nothing is demanded, decoding matches where so many bytes are there, and is out of bounds
  where they are not. -/
  free : node.hasConstraint = false → ∀ scope, Takes (node.decode scope) width

/-- The width of a node tells how many bytes every use of it takes, as long as literal lengths are
not rounded and the bytes are fewer than there are words. -/
theorem measures_width {word : UInt64} (width : node.fixedWidth? = some word)
    (literals : node.All LiteralExact) (small : node.extent < wordCount) :
    node.Measures word.toNat := by
  have fixed := fixed_of_fixedWidth? width
  have hword : word.toNat = node.extent := by
    obtain rfl : word = UInt64.ofNat node.extent :=
      Option.some.inj (width.symm.trans fixed.fixedWidth?_eq)
    exact UInt64.toNat_ofNat_of_lt' small
  rw [hword]
  refine ⟨fun scope r value next h => fixed.passes_of_matches literals h,
    fun scope path value => (fixed.fills_plan literals scope path value).full,
    fun path value c written within hwritten => ?_,
    fun free scope => fixed.takes_decode free literals scope⟩
  obtain ⟨content, hwrote, hall⟩ := @encodeAt_wrote node value c within path
  obtain ⟨hfault, hcontent, hcount⟩ := hall written hwritten
  have hlength : content.length = node.extent := by
    rw [hcontent]
    exact (fixed.fills_plan literals none path value).full hfault
  exact ⟨hcount.trans hlength, content, hlength, hwrote⟩

/-- A text of eight bytes and two numbers of four take sixteen bytes: of seventeen one is left, and
fifteen are not enough. -/
theorem measures_width_textAndNumbers :
    FixedLayout.textAndNumbersNode.Measures 16
      ∧ (∃ value, (FixedLayout.textAndNumbersNode.decode none
          (Reader.ofBytes (List.replicate 17 7))).Matches value ⟨16, [7]⟩)
      ∧ ∃ bounds, (FixedLayout.textAndNumbersNode.decode none
          (Reader.ofBytes (List.replicate 15 7))).Fails (.bounds bounds) := by
  have hwidth : FixedLayout.textAndNumbersNode.fixedWidth? = some 16 := by decide
  have hmeasures : FixedLayout.textAndNumbersNode.Measures 16 :=
    measures_width hwidth FixedLayout.literalExact_textAndNumbersNode (by decide)
  have htakes := hmeasures.free (by decide) none
  exact ⟨hmeasures, htakes.enough _ (by decide), htakes.short _ (by decide)⟩

end Node

end ByteRecord
