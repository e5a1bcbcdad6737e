import ByteRecord.Proofs.Scalar.Words
import ByteRecord.Proofs.Schema.Compiled

/-!
# Fixed widths as natural numbers

A node is fixed if it takes the same number of bytes in every instance: its slots have widths, its
arrays literal counts, and it has no branch. `Node.extent` is this number as a natural one. The
widths of the model are 64-bit words that wrap, so they agree with it only up to multiples of the
number of words.
-/

namespace ByteRecord

/-- How many bytes a slot takes whose width is fixed. -/
def Tag.extent : Tag → Nat
  | .scalar tag => tag.type.size + tag.padding
  | .string tag => tag.paddedTo.toNat
  | .cstring tag => tag.paddedTo.toNat

namespace Node

mutual

/-- How many bytes every instance of a fixed node takes. -/
def extent : Node → Nat
  | leaf tag => tag.extent
  | array element length =>
    match length with
    | .literal count => count.toInt.toNat * extent element
    | _ => 0
  | branch _ => 0
  | struct fields => fieldsExtent fields

/-- How many bytes fixed fields take together. -/
def fieldsExtent : List (String × Node) → Nat
  | [] => 0
  | (_, node) :: rest => extent node + fieldsExtent rest

end

/-- Every instance of the node takes the same number of bytes. -/
inductive Fixed : Node → Prop
  /-- A slot with a width. -/
  | leaf {tag : Tag} (width : tag.fixedWidth? ≠ none) : Fixed (.leaf tag)
  /-- An array with a literal count. -/
  | array {element : Node} {count : Int64} (nonneg : ¬ count < 0) (below : Fixed element) :
      Fixed (.array element (.literal count))
  /-- A struct of fixed fields. -/
  | struct {fields : List (String × Node)} (below : ∀ field ∈ fields, Fixed field.2) :
      Fixed (.struct fields)

end Node

/-- The width of a slot is its number of bytes. -/
theorem Tag.fixedWidth?_eq {tag : Tag} (h : tag.fixedWidth? ≠ none) :
    tag.fixedWidth? = some (UInt64.ofNat tag.extent) := by
  cases tag with
  | scalar tag =>
    have hsize : tag.type.size < 256 := by cases tag.type <;> decide
    have hbound := tag.paddedTo.toNat_lt
    have hpadding : tag.type.size + tag.padding = max tag.type.size tag.paddedTo.toNat := by
      rw [ScalarTag.padding]
      omega
    have hword : tag.width
        = if UInt64.ofNat tag.type.size ≤ tag.paddedTo then tag.paddedTo
          else UInt64.ofNat tag.type.size := rfl
    refine congrArg some (UInt64.toNat_inj.mp ?_)
    rw [hword, extent, hpadding]
    split
    · rename_i hle
      rw [UInt64.le_iff_toNat_le, UInt64.toNat_ofNat'] at hle
      rw [UInt64.toNat_ofNat']
      omega
    · rename_i hlt
      rw [UInt64.le_iff_toNat_le, UInt64.toNat_ofNat'] at hlt
      rw [UInt64.toNat_ofNat', UInt64.toNat_ofNat']
      omega
  | string tag =>
    rw [extent, UInt64.ofNat_toNat]
    rfl
  | cstring tag =>
    rw [fixedWidth?] at h ⊢
    split
    · rename_i hzero
      rw [if_pos hzero] at h
      exact absurd rfl h
    · rw [extent, UInt64.ofNat_toNat]

/-- A count that is not negative is the same word. -/
theorem Length.fixedCount?_literal {count : Int64} (h : ¬ count < 0) :
    (literal count).fixedCount? = some (UInt64.ofNat count.toInt.toNat) := by
  have hword := Number.toNat_toUInt64 h
  have hbound := count.toUInt64.toNat_lt
  rw [fixedCount?, if_neg h]
  refine congrArg some (UInt64.toNat_inj.mp ?_)
  rw [UInt64.toNat_ofNat']
  omega

theorem Length.eq_literal_of_fixedCount? {length : Length} {word : UInt64}
    (h : length.fixedCount? = some word) :
    ∃ count, length = literal count ∧ ¬ count < 0 := by
  cases length with
  | literal count =>
    refine ⟨count, rfl, fun hsign => ?_⟩
    simp [fixedCount?, hsign] at h
  | _ => cases h

namespace Node

variable {node : Node}

/-- The fields have a width together if each has one. -/
theorem exists_of_fieldsWidth? {fields : List (String × Node)} {total word : UInt64}
    (h : fieldsWidth? total fields = some word) :
    ∀ field ∈ fields, ∃ width, field.2.fixedWidth? = some width := by
  induction fields generalizing total with
  | nil => exact List.forall_mem_nil _
  | cons field rest ih =>
    obtain ⟨name, node⟩ := field
    rw [fieldsWidth?] at h
    cases hwidth : node.fixedWidth? with
    | none => simp [hwidth] at h
    | some width =>
      simp only [hwidth] at h
      exact List.forall_mem_cons.mpr ⟨⟨width, hwidth⟩, ih h⟩

/-- A node with a width is fixed. -/
theorem fixed_of_fixedWidth? {word : UInt64} (h : node.fixedWidth? = some word) : node.Fixed := by
  induction node generalizing word with
  | leaf tag =>
    rw [fixedWidth?] at h
    exact .leaf (by rw [h]; exact Option.some_ne_none word)
  | array element length ih =>
    rw [fixedWidth?] at h
    cases hcount : length.fixedCount? with
    | none => simp [hcount] at h
    | some count =>
      simp only [hcount] at h
      obtain ⟨width, hwidth, -⟩ := Option.map_eq_some_iff.mp h
      obtain ⟨n, rfl, hsign⟩ := Length.eq_literal_of_fixedCount? hcount
      exact .array hsign (ih hwidth)
  | branch alternatives ih => simp [fixedWidth?] at h
  | struct fields ih =>
    rw [fixedWidth?] at h
    have hfields := exists_of_fieldsWidth? h
    refine .struct fun field hfield => ?_
    obtain ⟨width, hwidth⟩ := hfields field hfield
    exact ih field hfield hwidth

/-- Fields that are fixed have a width together, which is their number of bytes behind the first
ones, up to multiples of the number of words. -/
theorem fieldsWidth?_eq (before : Nat) {fields : List (String × Node)}
    (each : ∀ field ∈ fields, field.2.fixedWidth? = some (UInt64.ofNat field.2.extent)) :
    fieldsWidth? (UInt64.ofNat before) fields
      = some (UInt64.ofNat (before + fieldsExtent fields)) := by
  induction fields generalizing before with
  | nil => rfl
  | cons field rest ih =>
    obtain ⟨name, node⟩ := field
    obtain ⟨hfirst, hrest⟩ := List.forall_mem_cons.mp each
    simp only [fieldsWidth?, fieldsExtent, hfirst]
    rw [← UInt64.ofNat_add, ih _ hrest, Nat.add_assoc]

/-- The width of a fixed node is its number of bytes, up to multiples of the number of words. -/
theorem Fixed.fixedWidth?_eq (h : node.Fixed) :
    node.fixedWidth? = some (UInt64.ofNat node.extent) := by
  induction node with
  | leaf tag =>
    cases h with
    | leaf width =>
      rw [fixedWidth?, extent]
      exact Tag.fixedWidth?_eq width
  | array element length ih =>
    cases h with
    | array nonneg below =>
      simp only [fixedWidth?, extent, Length.fixedCount?_literal nonneg, ih below, Option.map_some]
      rw [← UInt64.ofNat_mul, Nat.mul_comm]
  | branch alternatives ih => cases h
  | struct fields ih =>
    cases h with
    | struct below =>
      have hfields := fieldsWidth?_eq 0 fun field hfield =>
        ih field hfield (below field hfield)
      rwa [Nat.zero_add] at hfields

end Node

end ByteRecord
