import ByteRecord.Proofs.Encode.Acceptance
import ByteRecord.Proofs.FixedLayout.Decoding

/-!
# Writing a known number of bytes

The plan for a fixed node writes its number of bytes, and no more than that where it has a fault: a
number is followed by as many zeros as its slot has room for, a text is cut or filled to the width of
its slot, and an array of another size than its literal count writes nothing. `Plan.Fills` says so; it
goes through the ways of combining plans as `Takes` does through those of combining outcomes. A buffer
with room for that number of bytes is therefore never too small for the node.
-/

namespace ByteRecord

variable {path : Path} {value : Json} {scope : Scope} {width : Nat}

/-- A slot whose width is fixed has this size, whatever stands in it. -/
theorem Slot.size_eq_extent {tag : Tag} (fixed : tag.fixedWidth? ≠ none) (value : Json) :
    Slot.size ⟨tag, value⟩ = tag.extent := by
  cases tag with
  | scalar tag => rfl
  | string tag => rfl
  | cstring tag =>
    have hbounded : ¬ tag.paddedTo = 0 := fun hzero => fixed (if_pos hzero)
    cases value with
    | string s => exact if_neg hbounded
    | _ => rfl

/-- The plan writes `width` bytes if it has no fault, and in no case more. -/
structure Plan.Fills (plan : Plan) (width : Nat) : Prop where
  /-- There are no more bytes. -/
  within : plan.octets.length ≤ width
  /-- Without a fault there are all of them. -/
  full : plan.fault = none → plan.octets.length = width

namespace Plan

variable {first second : Plan} {rest : Nat}

theorem fills_empty : empty.Fills 0 := ⟨Nat.le_refl _, fun _ => rfl⟩

/-- A fault without writes is in place of any number of bytes. -/
theorem fills_failing (cause : Error) (width : Nat) : (failing cause).Fills width :=
  ⟨Nat.zero_le _, nofun⟩

/-- Plans one after the other write what they write together. -/
theorem Fills.append (hfirst : first.Fills width) (hsecond : second.Fills rest) :
    (first ++ second).Fills (width + rest) := by
  cases hfault : first.fault with
  | none =>
    have hlength : (first ++ second).octets.length
        = first.octets.length + second.octets.length := by
      rw [octets_append hfault, List.length_append]
    have hwidth := hfirst.full hfault
    have hrest := hsecond.within
    refine ⟨by omega, fun hnone => ?_⟩
    rw [hlength, hwidth, hsecond.full (fault_append_eq_none_iff.mp hnone).2]
  | some cause =>
    have hsame : first ++ second = ⟨first.writes, some cause⟩ := append_of_fault hfault
    rw [hsame]
    exact ⟨hfirst.within.trans (Nat.le_add_right _ _), nofun⟩

/-- Items of one width write it as often as there are items. -/
theorem fills_forItems {plan : Path → Json → Plan} {index : Nat} {items : List Json}
    (each : ∀ item ∈ items, ∀ path, (plan path item).Fills width) :
    (forItems plan path index items).Fills (items.length * width) := by
  induction items generalizing index with
  | nil =>
    rw [List.length_nil, Nat.zero_mul]
    exact fills_empty
  | cons item rest ih =>
    obtain ⟨hitem, hrest⟩ := List.forall_mem_cons.mp each
    rw [forItems, List.length_cons, Nat.succ_mul, Nat.add_comm _ width]
    exact (hitem _).append (ih hrest)

end Plan

/-- What is written for a slot whose width is fixed fills the slot. -/
theorem Tag.fills_plan {tag : Tag} (fixed : tag.fixedWidth? ≠ none) :
    (tag.plan path value).Fills tag.extent := by
  cases hwrites : tag.writes value with
  | error cause =>
    rw [plan, hwrites]
    exact Plan.fills_failing _ _
  | ok writes =>
    have hfault : (tag.plan path value).fault = none :=
      fault_plan_eq_none_iff.mpr ⟨writes, hwrites⟩
    have hcovers := covers_plan hfault
    have hlength : (tag.plan path value).octets.length = tag.extent := by
      rw [hcovers.octets_eq, List.flatMap_singleton,
        (hcovers.writable _ List.mem_cons_self).written.length_eq, Slot.size_eq_extent fixed]
    exact ⟨hlength.le, fun _ => hlength⟩

namespace Node

variable {node : Node} {capacity : Nat} {growable : Bool}

/-- Fields fill what each of them fills. -/
theorem fills_planFields {members : Members} {fields : List (String × Node)}
    (each : ∀ field ∈ fields, ∀ path value,
      (field.2.plan (some members) path value).Fills field.2.extent) :
    (planFields members path fields).Fills (fieldsExtent fields) := by
  induction fields with
  | nil => exact Plan.fills_empty
  | cons field rest ih =>
    obtain ⟨name, node⟩ := field
    obtain ⟨hfield, hrest⟩ := List.forall_mem_cons.mp each
    rw [planFields, fieldsExtent]
    cases members.find? name with
    | none => exact Plan.fills_failing _ _
    | some value => exact (hfield _ _).append (ih hrest)

/-- What is written for a fixed node fills its number of bytes. -/
theorem Fixed.fills_plan (fixed : node.Fixed) (literals : node.All LiteralExact) (scope : Scope)
    (path : Path) (value : Json) : (node.plan scope path value).Fills node.extent := by
  induction node generalizing scope path value with
  | leaf tag =>
    cases fixed with
    | leaf width =>
      rw [plan, extent]
      exact Tag.fills_plan width
  | array element length ih =>
    cases fixed with
    | array nonneg below =>
      rename_i count
      cases value with
      | array items =>
        rw [plan]
        cases hmismatch : (Length.literal count).mismatch? scope path items.length with
        | some cause => exact Plan.fills_failing _ _
        | none =>
          -- The size is the literal count, since that is what the length comes to.
          have hcount := Length.evaluate_literal nonneg literals.here scope
          have hsize : items.length = count.toInt.toNat := by
            rcases Length.mismatch?_eq_none_iff.mp hmismatch with hnone | hsome
            · rw [hcount] at hnone
              cases hnone
            · rw [hcount] at hsome
              injection hsome with hsome
              injection hsome with hsome
              exact hsome.symm
          rw [extent, ← hsize]
          exact Plan.fills_forItems fun item _ path => ih below literals.element scope path item
      | _ => exact Plan.fills_failing _ _
  | branch alternatives ih => cases fixed
  | struct fields ih =>
    cases fixed with
    | struct below =>
      cases value with
      | object members =>
        rw [plan, extent]
        exact fills_planFields fun field hfield path value =>
          ih field hfield (below field hfield) (literals.field hfield) _ path value
      | _ => exact Plan.fills_failing _ _

/-- What is written for a value that has the shape of the node. -/
def content (node : Node) (value : Json) : List UInt8 := (node.slots value).flatMap Slot.octets

/-- A buffer without contents has room for so many bytes, or grows until it has. -/
def RoomFor (size capacity : Nat) (growable : Bool) : Prop :=
  size ≤ capacity ∨ growable = true ∧ size ≤ signedBound

/-- With room for its number of bytes a fixed node is encoded as far as its plan goes. -/
theorem Fixed.execute_empty (fixed : node.Fixed) (literals : node.All LiteralExact)
    (small : node.extent < wordCount) (room : RoomFor node.extent capacity growable)
    (order : Endian) (path : Path) (value : Json) :
    ∃ last, last.contents = (node.plan none path value).octets
      ∧ last.position = (node.plan none path value).octets.length
      ∧ (Cursor.execute (node.plan none path value)).on (Cursor.empty capacity order growable)
        = ((node.plan none path value).outcome, last) := by
  have hwithin := (fixed.fills_plan literals none path value).within
  have hstart : (Cursor.empty capacity order growable).position
      + (node.plan none path value).octets.length
        = (node.plan none path value).octets.length := Nat.zero_add _
  have hcapacity : (Cursor.empty capacity order growable).capacity = capacity :=
    List.length_replicate
  obtain ⟨last, hwrote, hexecute⟩ := @Cursor.exists_execute _
    (Cursor.within_empty capacity order growable) (node.plan none path value)
    (by rw [hstart, hcapacity]
        exact room.symm.imp And.left hwithin.trans)
    (by omega)
    (fun hlarge => by
      rw [hstart, hcapacity] at hlarge
      rcases room with hroom | ⟨-, hroom⟩ <;> omega)
  obtain ⟨hcontents, hposition⟩ := hwrote.of_empty
  exact ⟨last, hcontents, hposition, hexecute⟩

/-- A value of the shape of a fixed node is encoded into its number of bytes. -/
theorem Fixed.encodeAt_of_accepts (fixed : node.Fixed) (literals : node.All LiteralExact)
    (small : node.extent < wordCount) (accepts : node.Accepts none value)
    (room : RoomFor node.extent capacity growable) (order : Endian) (path : Path) :
    (node.content value).length = node.extent
      ∧ (node.encodeAt path value (.empty capacity order growable)).result = .ok node.extent
      ∧ (node.encodeAt path value (.empty capacity order growable)).cursor.contents
        = node.content value := by
  obtain ⟨last, hcontents, hposition, hexecute⟩ :=
    fixed.execute_empty literals small room order path value
  have hfault : (node.plan none path value).fault = none := fault_plan_eq_none_iff.mpr accepts
  have hcontent : (node.plan none path value).octets = node.content value :=
    (covers_plan hfault).octets_eq
  have hlength := (fixed.fills_plan literals none path value).full hfault
  rw [encodeAt, hexecute, Plan.outcome_eq_ok_iff.mpr hfault]
  refine ⟨hcontent ▸ hlength, ?_, hcontents.trans hcontent⟩
  dsimp only
  rw [hposition, hlength]
  rfl

/-- Another value is refused for what it is, not for want of room. -/
theorem Fixed.encodeAt_of_not_accepts (fixed : node.Fixed) (literals : node.All LiteralExact)
    (small : node.extent < wordCount) (refuses : ¬ node.Accepts none value)
    (room : RoomFor node.extent capacity growable) (order : Endian) (path : Path) :
    ∃ cause, (node.encodeAt path value (.empty capacity order growable)).result = .error cause
      ∧ ∀ full, cause ≠ .capacity full := by
  obtain ⟨last, -, -, hexecute⟩ := fixed.execute_empty literals small room order path value
  cases hfault : (node.plan none path value).fault with
  | none => exact absurd (fault_plan_eq_none_iff.mp hfault) refuses
  | some cause =>
    rw [encodeAt, hexecute, Plan.outcome, hfault]
    refine ⟨cause, rfl, fun full hfull => ?_⟩
    rcases record_or_schema_of_fault hfault with ⟨place, error, rfl⟩ | ⟨error, rfl⟩
    · cases hfull
    · cases hfull

end Node

end ByteRecord
