import ByteRecord.FixedLayout
import ByteRecord.Proofs.Schema.Extent

/-!
# Where the fields of a fixed layout are

The fields of a layout follow one another, counted in 64-bit words that wrap. As long as their sizes
add up to less than the number of words, no word wraps: the fields are disjoint, and a buffer that
is as long as the layout holds each of them. Beyond that the layout says that it is shorter than its
fields are, and a field may lie outside of a buffer that it accepts.
-/

namespace ByteRecord

namespace FixedLayout

open Node

/-- The fields one after the other, from the byte of the given number on. -/
def placed (start : Nat) : List (String × Node) → List PlacedField
  | [] => []
  | (name, node) :: rest =>
    ⟨name, UInt64.ofNat start, UInt64.ofNat node.extent, node⟩
      :: placed (start + node.extent) rest

/-- What is placed behind some bytes: fixed fields without demands, one after the other. -/
theorem place_eq_ok {start : Nat} {fields : List (String × Node)} {layout : FixedLayout}
    (h : place (UInt64.ofNat start) fields = .ok layout) :
    (∀ field ∈ fields, field.2.Fixed ∧ field.2.hasConstraint = false)
      ∧ layout = ⟨placed start fields, UInt64.ofNat (start + fieldsExtent fields)⟩ := by
  induction fields generalizing start layout with
  | nil =>
    rw [place] at h
    exact ⟨List.forall_mem_nil _, (Except.ok.inj h).symm⟩
  | cons field rest ih =>
    obtain ⟨name, node⟩ := field
    rw [place] at h
    cases hwidth : node.fixedWidth? with
    | none => simp [hwidth] at h
    | some width =>
      have hfixed := fixed_of_fixedWidth? hwidth
      have hextent : width = UInt64.ofNat node.extent :=
        Option.some.inj (hwidth.symm.trans hfixed.fixedWidth?_eq)
      simp only [hwidth] at h
      split at h
      · cases h
      · rename_i hfree
        rw [hextent, ← UInt64.ofNat_add] at h
        obtain ⟨behind, hbehind, rfl⟩ := map_eq_ok_iff.mp h
        obtain ⟨heach, rfl⟩ := ih hbehind
        refine ⟨List.forall_mem_cons.mpr ⟨⟨hfixed, Bool.not_eq_true _ ▸ hfree⟩, heach⟩, ?_⟩
        rw [placed, fieldsExtent, Nat.add_assoc]

/-- What a layout is: the fixed fields of a struct one after the other, without demands. -/
theorem ofNode_eq_ok {node : Node} {layout : FixedLayout} (h : ofNode node = .ok layout) :
    ∃ fields, node = .struct fields
      ∧ (∀ field ∈ fields, field.2.Fixed ∧ field.2.hasConstraint = false)
      ∧ layout = ⟨placed 0 fields, UInt64.ofNat (fieldsExtent fields)⟩ := by
  cases node with
  | struct fields =>
    have hplace : place (UInt64.ofNat 0) fields = .ok layout := h
    obtain ⟨heach, hlayout⟩ := place_eq_ok hplace
    rw [Nat.zero_add] at hlayout
    exact ⟨fields, rfl, heach, hlayout⟩
  | _ => cases h

/-- The fields follow one another without gaps from the byte of the given number on. -/
def Consecutive (start : Nat) : List PlacedField → Prop
  | [] => True
  | field :: rest => field.offset.toNat = start ∧ Consecutive (start + field.size.toNat) rest

/-- How many bytes the fields take together, each by its 64-bit size. -/
def total (fields : List PlacedField) : Nat := (fields.map fun field => field.size.toNat).sum

/-- The layout addresses no bytes outside of the size that it checks. -/
structure InBounds (layout : FixedLayout) : Prop where
  /-- The fields follow one another from the first byte on. -/
  consecutive : Consecutive 0 layout.fields
  /-- No two fields share a byte. -/
  disjoint : layout.fields.Pairwise fun field later =>
    field.offset.toNat + field.size.toNat ≤ later.offset.toNat
  /-- Every field ends within the size of the layout. -/
  within : ∀ field ∈ layout.fields, field.offset.toNat + field.size.toNat ≤ layout.size.toNat
  /-- A buffer of that size holds all bytes of every field. -/
  held : ∀ bytes : List UInt8, layout.size.toNat ≤ bytes.length →
    ∀ field ∈ layout.fields, (field.slice bytes).length = field.size.toNat

theorem total_cons (field : PlacedField) (rest : List PlacedField) :
    total (field :: rest) = field.size.toNat + total rest := by
  rw [total, total, List.map_cons, List.sum_cons]

/-- Fields that follow one another stand behind the first byte, and end where they end together. -/
theorem Consecutive.bounds {start : Nat} {fields : List PlacedField}
    (h : Consecutive start fields) :
    ∀ field ∈ fields, start ≤ field.offset.toNat
      ∧ field.offset.toNat + field.size.toNat ≤ start + total fields := by
  induction fields generalizing start with
  | nil => exact List.forall_mem_nil _
  | cons first rest ih =>
    obtain ⟨hoffset, hrest⟩ := h
    rw [total_cons]
    refine List.forall_mem_cons.mpr ⟨by omega, fun field hfield => ?_⟩
    have hfield := ih hrest field hfield
    omega

theorem Consecutive.pairwise {start : Nat} {fields : List PlacedField}
    (h : Consecutive start fields) :
    fields.Pairwise fun field later =>
      field.offset.toNat + field.size.toNat ≤ later.offset.toNat := by
  induction fields generalizing start with
  | nil => exact List.Pairwise.nil
  | cons first rest ih =>
    obtain ⟨hoffset, hrest⟩ := h
    refine List.pairwise_cons.mpr ⟨fun later hlater => ?_, ih hrest⟩
    have hlater := hrest.bounds later hlater
    omega

/-- The last of some fields that follow one another ends where they end together. -/
theorem Consecutive.exists_end {start : Nat} {fields : List PlacedField}
    (h : Consecutive start fields) (hne : fields ≠ []) :
    ∃ field ∈ fields, field.offset.toNat + field.size.toNat = start + total fields := by
  induction fields generalizing start with
  | nil => exact absurd rfl hne
  | cons first rest ih =>
    obtain ⟨hoffset, hrest⟩ := h
    rw [total_cons]
    by_cases hlast : rest = []
    · refine ⟨first, List.mem_cons_self, ?_⟩
      rw [hlast, hoffset, total, List.map_nil, List.sum_nil, Nat.add_zero]
    · obtain ⟨field, hfield, hend⟩ := ih hrest hlast
      exact ⟨field, List.mem_cons_of_mem _ hfield, by omega⟩

/-- Fields that are placed where no word wraps follow one another, and end at the word that counts
them all. -/
theorem consecutive_placed {fields : List (String × Node)} {start first : Nat}
    (hfirst : start % wordCount = first)
    (h : first + total (placed start fields) < wordCount) :
    Consecutive first (placed start fields)
      ∧ (UInt64.ofNat (start + fieldsExtent fields)).toNat
          = first + total (placed start fields) := by
  induction fields generalizing start first with
  | nil =>
    refine ⟨trivial, ?_⟩
    rw [UInt64.toNat_ofNat']
    exact hfirst
  | cons field rest ih =>
    obtain ⟨name, node⟩ := field
    rw [placed, total_cons] at h ⊢
    dsimp only at h ⊢
    have hsize : (UInt64.ofNat node.extent).toNat = node.extent % wordCount :=
      UInt64.toNat_ofNat'
    have hoffset : (UInt64.ofNat start).toNat = first := UInt64.toNat_ofNat'.trans hfirst
    rw [hsize] at h ⊢
    have hnext : (start + node.extent) % wordCount = first + node.extent % wordCount := by
      rw [Nat.add_mod, hfirst]
      exact Nat.mod_eq_of_lt (by omega)
    obtain ⟨hconsecutive, hend⟩ := ih hnext (by omega)
    rw [Consecutive, hsize, fieldsExtent, ← Nat.add_assoc, hend, Nat.add_assoc]
    exact ⟨⟨hoffset, hconsecutive⟩, rfl⟩

/-- A field that ends within a buffer is all there. -/
theorem length_slice {field : PlacedField} {bytes : List UInt8}
    (h : field.offset.toNat + field.size.toNat ≤ bytes.length) :
    (field.slice bytes).length = field.size.toNat := by
  rw [PlacedField.slice, List.length_take, List.length_drop]
  omega

/-- A fixed layout addresses no bytes outside of its size exactly if the sizes of its fields add up
to less than the number of 64-bit words. -/
theorem inBounds_iff {node : Node} {layout : FixedLayout} (built : ofNode node = .ok layout) :
    layout.InBounds ↔ total layout.fields < wordCount := by
  obtain ⟨fields, -, -, hlayout⟩ := ofNode_eq_ok built
  constructor
  · intro h
    by_cases hnone : layout.fields = []
    · rw [hnone]
      decide
    · obtain ⟨field, hfield, hend⟩ := h.consecutive.exists_end hnone
      have hwithin := h.within field hfield
      have hword := layout.size.toNat_lt
      rw [wordCount]
      omega
  · intro h
    have hroom : 0 + total (placed 0 fields) < wordCount := by
      rw [Nat.zero_add]
      rwa [hlayout] at h
    obtain ⟨hconsecutive, hend⟩ := consecutive_placed (Nat.zero_mod wordCount) hroom
    rw [Nat.zero_add] at hend
    subst hlayout
    have hwithin : ∀ field ∈ placed 0 fields,
        field.offset.toNat + field.size.toNat ≤ (UInt64.ofNat (fieldsExtent fields)).toNat := by
      intro field hfield
      have hbound := (hconsecutive.bounds field hfield).2
      omega
    refine ⟨hconsecutive, hconsecutive.pairwise, hwithin, fun bytes hbytes field hfield => ?_⟩
    exact length_slice ((hwithin field hfield).trans hbytes)

/-- Describes a text of eight bytes and two numbers of four, half of which is slack. -/
def textAndNumbersDescription : Json :=
  .object [("s", .string "cstring:8"),
    ("xs", .array [.string "uint16:4", .number (.unsigned 2)])]

/-- The schema of that description. -/
def textAndNumbersNode : Node :=
  struct [("s", leaf (.cstring ⟨8, none⟩)),
    ("xs", array (leaf (.scalar ⟨.uint16, .big, 4, none⟩)) (.literal 2))]

/-- The layout of that schema. -/
def textAndNumbersLayout : FixedLayout :=
  ⟨[⟨"s", 0, 8, leaf (.cstring ⟨8, none⟩)⟩,
    ⟨"xs", 8, 8, array (leaf (.scalar ⟨.uint16, .big, 4, none⟩)) (.literal 2)⟩], 16⟩

theorem ofNode_textAndNumbersNode : ofNode textAndNumbersNode = .ok textAndNumbersLayout := rfl

/-- The text and the numbers keep within their sixteen bytes. -/
theorem inBounds_textAndNumbers : textAndNumbersLayout.InBounds :=
  (inBounds_iff ofNode_textAndNumbersNode).mpr (by decide)

/-- Describes a text that leaves a single byte up to the number of words, and two bytes. -/
def overflowDescription : Json :=
  .object [("front", .string "string:18446744073709551615"), ("back", .string "uint8"),
    ("last", .string "uint8")]

/-- The schema of that description. -/
def overflowNode : Node :=
  struct [("front", leaf (.string ⟨18446744073709551615, none⟩)),
    ("back", leaf (.scalar ⟨.uint8, .big, 0, none⟩)),
    ("last", leaf (.scalar ⟨.uint8, .big, 0, none⟩))]

/-- The layout of that schema. Its size has wrapped to a single byte. -/
def overflowLayout : FixedLayout :=
  ⟨[⟨"front", 0, 18446744073709551615, leaf (.string ⟨18446744073709551615, none⟩)⟩,
    ⟨"back", 18446744073709551615, 1, leaf (.scalar ⟨.uint8, .big, 0, none⟩)⟩,
    ⟨"last", 0, 1, leaf (.scalar ⟨.uint8, .big, 0, none⟩)⟩], 1⟩

/-- A layout whose sizes wrap accepts a buffer of one byte for a field that starts two to the 64
less one bytes further on. -/
theorem not_inBounds_overflow :
    compile overflowDescription = .ok overflowNode ∧ ofNode overflowNode = .ok overflowLayout
      ∧ ¬ overflowLayout.InBounds
      ∧ ∃ field, overflowLayout.locate [0] "back" = .ok field
          ∧ [0].length < field.offset.toNat + field.size.toNat := by
  refine ⟨rfl, rfl, fun h => ?_, _, rfl, by decide⟩
  have hback := h.within ⟨"back", 18446744073709551615, 1, leaf (.scalar ⟨.uint8, .big, 0, none⟩)⟩
    (List.mem_cons_of_mem _ List.mem_cons_self)
  exact absurd hback (by decide)

end FixedLayout

end ByteRecord
