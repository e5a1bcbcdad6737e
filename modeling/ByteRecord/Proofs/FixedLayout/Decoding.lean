import ByteRecord.Proofs.Decode.Taking
import ByteRecord.Proofs.Length.Arithmetic
import ByteRecord.Proofs.Record.Spelling

/-!
# Decoding fixed nodes

A fixed node without demands takes its number of bytes wherever it is decoded, whatever the bytes
are. The value depends on these bytes alone: neither on where they stand nor on the scope, since a
literal length reads no field.
-/

namespace ByteRecord

namespace Node

/-- The literal length of the node is a number without rounding, if it is an array. -/
def LiteralExact : Node → Prop
  | array _ (.literal count) => count.toInt ≤ integerBound
  | _ => True

/-- What holds of slots, arrays of literal counts and structs holds of all nodes of a fixed one. -/
theorem Fixed.all {p : Node → Prop} (slot : ∀ tag, p (.leaf tag))
    (counted : ∀ element count, p (.array element (.literal count)))
    (fields : ∀ fields, p (.struct fields)) {node : Node} (fixed : node.Fixed) : node.All p := by
  induction node with
  | leaf tag => exact .leaf (slot tag)
  | array element length ih =>
    cases fixed with
    | array nonneg below => exact .array (counted element _) (ih below)
  | branch alternatives ih => cases fixed
  | struct members ih =>
    cases fixed with
    | struct below =>
      exact .struct (fields members) fun field hfield => ih field hfield (below field hfield)

theorem Fixed.branchFree {node : Node} (fixed : node.Fixed) : node.BranchFree :=
  fixed.all (fun _ => trivial) (fun _ _ => trivial) fun _ => trivial

theorem Fixed.countsKnown {node : Node} (fixed : node.Fixed) : node.CountsKnown :=
  fixed.all (fun _ => trivial) (fun _ _ => trivial) fun _ => trivial

/-- The lengths of a fixed node read no fields. -/
theorem Fixed.scopedIn {node : Node} (fixed : node.Fixed) (declared : Declared) :
    node.ScopedIn declared := by
  induction node generalizing declared with
  | leaf tag => trivial
  | array element length ih =>
    cases fixed with
    | array nonneg below => exact ⟨List.forall_mem_nil _, ih below declared⟩
  | branch alternatives ih => cases fixed
  | struct fields ih =>
    cases fixed with
    | struct below =>
      have hfields : ∀ names, FieldsScopedIn names fields := by
        induction fields with
        | nil => exact fun _ => trivial
        | cons field rest ihrest =>
          intro names
          obtain ⟨hfirst, hrest⟩ := List.forall_mem_cons.mp ih
          obtain ⟨hfixed, hfixeds⟩ := List.forall_mem_cons.mp below
          exact ⟨hfirst hfixed _, ihrest hrest hfixeds _⟩
      exact hfields []

/-- Fields take what each of them takes, whatever is done before. -/
theorem takes_decodeFields {fields : List (String × Node)}
    (each : ∀ field ∈ fields, ∀ scope, Takes (field.2.decode scope) field.2.extent)
    (done : Members) : Takes (decodeFields done fields) (fieldsExtent fields) := by
  induction fields generalizing done with
  | nil => exact Takes.matched done
  | cons field rest ih =>
    obtain ⟨name, node⟩ := field
    obtain ⟨hfirst, hrest⟩ := List.forall_mem_cons.mp each
    exact ((hfirst (some done)).noting (.fieldMismatch name)).andThen fun value => ih hrest _

theorem takes_decode_struct {fields : List (String × Node)}
    (each : ∀ field ∈ fields, ∀ scope, Takes (field.2.decode scope) field.2.extent)
    (scope : Scope) : Takes ((struct fields).decode scope) (fieldsExtent fields) := by
  rw [decode_struct]
  exact (takes_decodeFields each []).map Json.object

/-- A fixed node without demands takes its number of bytes. -/
theorem Fixed.takes_decode {node : Node} (fixed : node.Fixed) (free : node.hasConstraint = false)
    (literals : node.All LiteralExact) (scope : Scope) :
    Takes (node.decode scope) node.extent := by
  induction node generalizing scope with
  | leaf tag =>
    cases fixed with
    | leaf width =>
      rw [decode_leaf, extent]
      exact Tag.takes_decode width free
  | array element length ih =>
    cases fixed with
    | array nonneg below =>
      rename_i count
      have helement := ih below free literals.element scope
      have hresolve : ∀ remaining, (Length.literal count).resolve scope remaining
          = .ok (some count.toInt.toNat) := fun remaining =>
        Length.resolve_of_evaluate (Length.evaluate_literal nonneg literals.here scope)
      cases hplain : element.plainScalar? with
      | none =>
        rw [decode_array_of_not_plain hresolve hplain, extent]
        exact (helement.repeated _ _).map Json.array
      | some tag =>
        obtain ⟨rfl, hpadding, -⟩ := plainScalar?_eq_some hplain
        have hextent : Node.extent (.leaf (.scalar tag)) = tag.type.size := by
          rw [extent, Tag.extent, hpadding, Nat.add_zero]
        rw [decode_array_of_plain hresolve hplain, extent, hextent]
        exact (Takes.scalars tag.type tag.order _).map _
  | branch alternatives ih => cases fixed
  | struct fields ih =>
    cases fixed with
    | struct below =>
      have hfree := anyFieldConstraint_eq_false_iff.mp free
      rw [extent]
      refine takes_decode_struct (fun field hfield scope => ?_) scope
      exact ih field hfield (below field hfield) (hfree field hfield) (literals.field hfield) scope

/-- What a fixed node matches, it matches wherever the same bytes stand and in every scope. -/
theorem Fixed.matches_elsewhere {node : Node} (fixed : node.Fixed) (typed : node.Typed)
    (distinct : node.DistinctNames) {scope : Scope} {r next : Reader} {value : Json}
    (h : (node.decode scope r).Matches value next) :
    ∃ bytes, r.Passes bytes next ∧ ∀ other place behind, Reader.Passes place bytes behind →
      (node.decode other place).Matches value behind := by
  obtain ⟨bytes, hpass, hspelled⟩ := spelled_of_matches fixed.branchFree distinct h
  have hconforms : node.Conforms scope value :=
    conforms_of_matches typed (Scope.Extends.refl _) h
  have hreads := hconforms.readsBack fixed.branchFree distinct fixed.countsKnown
  refine ⟨bytes, hpass, fun other place behind hplace => ?_⟩
  have hagrees : Agrees none other scope := nofun
  exact hreads none other place behind bytes (fixed.scopedIn none) hagrees hspelled hplace

end Node

end ByteRecord
