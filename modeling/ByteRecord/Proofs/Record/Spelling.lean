import ByteRecord.Proofs.Record.Conformance
import ByteRecord.Proofs.Record.Slots
import ByteRecord.Proofs.Schema.Compiled

/-!
# Slots in the bytes of a record

Without branches and lengths that depend on the data, decoding gives a record exactly where the
bytes spell its slots and the record conforms to the schema. What the struct at hand still lacks
while it is decoded is not missed, since lengths read only the fields before them.
-/

namespace ByteRecord

/-- A run of an element passes over what the slots of its values spell. -/
theorem Run.spelled {element : Node} {scope : Scope} {r next : Reader} {values : List Json}
    (run : Run (element.decode scope) r values next)
    (each : ∀ r value next, (element.decode scope r).Matches value next →
      ∃ bytes, r.Passes bytes next ∧ Spelled (element.slots value) bytes) :
    ∃ bytes, r.Passes bytes next ∧ Spelled (values.flatMap element.slots) bytes := by
  induction run with
  | nil => exact ⟨[], Reader.passes_nil _, .nil⟩
  | cons first rest ih =>
    obtain ⟨before, hbefore, hfirst⟩ := each _ _ _ first
    obtain ⟨behind, hbehind, hrest⟩ := ih
    rw [List.flatMap_cons]
    exact ⟨before ++ behind, hbefore.append hbehind, hfirst.append hrest⟩

/-- A run of fields passes over what the slots of the fields spell. -/
theorem FieldRun.spelled {done added : Members} {fields : List (String × Node)}
    {r next : Reader} (run : FieldRun done fields r added next)
    (distinct : ((done ++ added).map Prod.fst).Nodup)
    (each : ∀ field ∈ fields, ∀ scope r value next,
      (field.2.decode scope r).Matches value next →
        ∃ bytes, r.Passes bytes next ∧ Spelled (field.2.slots value) bytes) :
    ∃ bytes, r.Passes bytes next ∧ Spelled (Node.fieldSlots (done ++ added) fields) bytes := by
  induction run with
  | nil => exact ⟨[], Reader.passes_nil _, .nil⟩
  | cons first rest ih =>
    rename_i done added name node fields r mid next value
    obtain ⟨hfirst, hrest⟩ := List.forall_mem_cons.mp each
    obtain ⟨before, hbefore, hnode⟩ := hfirst _ _ _ _ first
    rw [Node.fieldSlots_cons (Members.find?_of_nodup distinct)]
    rw [List.append_assoc] at ih
    obtain ⟨behind, hbehind, hfields⟩ := ih distinct hrest
    exact ⟨before ++ behind, hbefore.append hbehind, hnode.append hfields⟩

namespace Node

/-- What matches a schema without branches is what the slots of its value spell. -/
theorem spelled_of_matches {node : Node} (branchFree : node.BranchFree)
    (distinct : node.DistinctNames) {scope : Scope} {r next : Reader} {value : Json}
    (h : (node.decode scope r).Matches value next) :
    ∃ bytes, r.Passes bytes next ∧ Spelled (node.slots value) bytes := by
  induction node generalizing scope r next value with
  | leaf tag =>
    rw [decode] at h
    obtain ⟨slot, hpass, hspells⟩ := Tag.decode_matches_iff.mp h
    exact ⟨slot, hpass, .singleton hspells⟩
  | array element length ih =>
    obtain ⟨items, count?, rfl, run, -⟩ := decode_array_matches h
    exact run.spelled fun r value next hitem => ih branchFree.element distinct.element hitem
  | branch alternatives ih => exact absurd branchFree BranchFree.not_branch
  | struct fields ih =>
    obtain ⟨members, rfl, run⟩ := decode_struct_matches_iff.mp h
    have hnames : (([] ++ members).map Prod.fst).Nodup := by
      rw [List.nil_append, run.names_eq]
      exact distinct.here
    refine run.spelled hnames ?_
    intro field hfield scope r value next hvalue
    exact ih field hfield (branchFree.field hfield) (distinct.field hfield) hvalue

/-- The slots of a conforming record hold what may stand in them. -/
theorem Conforms.holds_slots {node : Node} (distinct : node.DistinctNames) {scope : Scope}
    {value : Json} (h : node.Conforms scope value) :
    ∀ slot ∈ node.slots value, slot.tag.Holds slot.value := by
  induction node generalizing scope value with
  | leaf tag =>
    cases h with
    | leaf holds => exact List.forall_mem_singleton.mpr holds
  | array element length ih =>
    cases h with
    | array size each =>
      intro slot hslot
      obtain ⟨item, hitem, hmem⟩ := List.mem_flatMap.mp hslot
      exact ih distinct.element (each item hitem) slot hmem
  | branch alternatives ih => exact List.forall_mem_nil _
  | struct fields ih =>
    obtain ⟨members, rfl, -, hfields⟩ := h.forall_fields distinct.here
    intro slot hslot
    obtain ⟨field, hfield, value, hfind, hmem⟩ := mem_fieldSlots hslot
    obtain ⟨other, hother, hconforms⟩ := hfields field hfield
    rw [hfind] at hother
    injection hother with hother
    exact ih field hfield (distinct.field hfield) (hother ▸ hconforms) slot hmem

/-- The slots of a value have the tags of the schema, so their references are typed. -/
theorem Typed.slots {node : Node} (typed : node.Typed) (value : Json) :
    ∀ slot ∈ node.slots value, slot.tag.WellTyped := by
  induction node generalizing value with
  | leaf tag => exact List.forall_mem_singleton.mpr typed.here
  | array element length ih =>
    cases value with
    | array items =>
      intro slot hslot
      obtain ⟨item, -, hmem⟩ := List.mem_flatMap.mp hslot
      exact ih typed.element item slot hmem
    | _ => exact List.forall_mem_nil _
  | branch alternatives ih => exact List.forall_mem_nil _
  | struct fields ih =>
    cases value with
    | object members =>
      intro slot hslot
      obtain ⟨field, hfield, value, -, hmem⟩ := mem_fieldSlots hslot
      exact ih field hfield (typed.field hfield) value slot hmem
    | _ => exact List.forall_mem_nil _

/-- Where no length depends on the data, an array that conforms has a count. -/
theorem CountsKnown.evaluate_eq {element : Node} {length : Length} {scope : Scope} {size : Nat}
    (h : (array element length).CountsKnown)
    (hsize : length.evaluate scope = .ok none ∨ length.evaluate scope = .ok (some size)) :
    length.evaluate scope = .ok (some size) := by
  have known := h.here
  rcases hsize with hnone | hsome
  · rcases Length.eq_of_evaluate_eq_none hnone with rfl | ⟨back, rfl⟩
    · exact absurd known id
    · exact absurd known id
  · exact hsome

/-- The scope at hand has the numbers of the completed one for all declared fields. -/
def Agrees (declared : Declared) (part full : Scope) : Prop :=
  ∀ name, declared.has name = true → part.number name = full.number name

/-- The value is decoded from what its slots spell, while the scope is still incomplete. -/
def ReadsBack (full : Scope) (node : Node) (value : Json) : Prop :=
  ∀ declared part r next bytes, node.ScopedIn declared → Agrees declared part full →
    Spelled (node.slots value) bytes → r.Passes bytes next →
      (node.decode part r).Matches value next

/-- Items that are read back form a run. -/
theorem run_of_spelled {element : Node} {declared : Declared} {part full : Scope}
    {items : List Json} (reads : element.ScopedIn declared) (agrees : Agrees declared part full)
    (each : ∀ item ∈ items, ReadsBack full element item) {r next : Reader} {bytes : List UInt8}
    (spelled : Spelled (items.flatMap element.slots) bytes) (pass : r.Passes bytes next) :
    Run (element.decode part) r items next := by
  induction items generalizing r bytes with
  | nil =>
    cases spelled with
    | nil =>
      rw [pass.eq_advance]
      exact .nil
  | cons item rest ih =>
    obtain ⟨hitem, hrest⟩ := List.forall_mem_cons.mp each
    rw [List.flatMap_cons] at spelled
    obtain ⟨before, behind, rfl, hbefore, hbehind⟩ := spelled.split
    obtain ⟨mid, hfirst, hlast⟩ := pass.split
    have hmatch := hitem _ _ _ _ _ reads agrees hbefore hfirst
    have hrun := ih hrest hbehind hlast
    exact .cons hmatch hrun

/-- Fields that are read back form a run, each with those before it in scope. -/
theorem fieldRun_of_spelled {fields : List (String × Node)} {done added : Members}
    (names : added.map Prod.fst = fields.map Prod.fst)
    (distinct : ((done ++ added).map Prod.fst).Nodup)
    (reads : FieldsScopedIn (done.map Prod.fst) fields)
    (each : ∀ pair ∈ fields.zip added, ReadsBack (some (done ++ added)) pair.1.2 pair.2.2)
    {r next : Reader} {bytes : List UInt8}
    (spelled : Spelled (fieldSlots (done ++ added) fields) bytes) (pass : r.Passes bytes next) :
    FieldRun done fields r added next := by
  induction fields generalizing done added r bytes with
  | nil =>
    rw [List.map_nil, List.map_eq_nil_iff] at names
    subst names
    cases spelled with
    | nil =>
      rw [pass.eq_advance]
      exact .nil
  | cons field fields ih =>
    obtain ⟨name, node⟩ := field
    cases added with
    | nil => cases names
    | cons member added =>
      obtain ⟨key, value⟩ := member
      injection names with hname names
      subst hname
      rw [fieldSlots_cons (Members.find?_of_nodup distinct)] at spelled
      obtain ⟨before, behind, rfl, hbefore, hbehind⟩ := spelled.split
      obtain ⟨mid, hfirst, hlast⟩ := pass.split
      obtain ⟨hnode, hrest⟩ := reads
      rw [List.zip_cons_cons] at each
      obtain ⟨hvalue, heach⟩ := List.forall_mem_cons.mp each
      have hagrees : Agrees (some (done.map Prod.fst)) (some done)
          (some (done ++ (key, value) :: added)) := by
        intro name hhas
        rw [Declared.has, Option.any_some, List.contains_iff_mem] at hhas
        exact (Scope.number_append_of_mem _ hhas).symm
      have hsplit : done ++ (key, value) :: added = (done ++ [(key, value)]) ++ added := by
        rw [List.append_assoc, List.singleton_append]
      have hmatch := hvalue _ _ _ _ _ hnode hagrees hbefore hfirst
      have hreads : FieldsScopedIn ((done ++ [(key, value)]).map Prod.fst) fields := by
        rw [List.map_append]
        exact hrest
      rw [hsplit] at distinct heach hbehind
      exact .cons hmatch (ih names distinct hreads heach hbehind hlast)

/-- A conforming record is decoded from what its slots spell. -/
theorem Conforms.readsBack {node : Node} (branchFree : node.BranchFree)
    (distinct : node.DistinctNames) (countsKnown : node.CountsKnown) {full : Scope} {value : Json}
    (h : node.Conforms full value) : node.ReadsBack full value := by
  induction node generalizing full value with
  | leaf tag =>
    intro declared part r next bytes _ _ spelled pass
    cases spelled with
    | cons first rest =>
      cases rest with
      | nil =>
        rw [List.append_nil] at pass
        rw [decode]
        exact Tag.decode_matches_iff.mpr ⟨_, pass, first⟩
  | array element length ih =>
    intro declared part r next bytes reads agrees spelled pass
    cases h with
    | array size each =>
      rename_i items
      obtain ⟨hfields, hreads⟩ := reads
      have hpart : length.evaluate part = .ok (some items.length) := by
        refine Length.evaluate_of_agree ?_ (countsKnown.evaluate_eq size)
        intro name hname y hy
        rw [agrees name (hfields name hname)]
        exact hy
      have hitems : ∀ item ∈ items, ReadsBack full element item := fun item hitem =>
        ih branchFree.element distinct.element countsKnown.element (each item hitem)
      have hrun := run_of_spelled hreads agrees hitems spelled pass
      have hresolve : length.resolve part r.remaining = .ok (some items.length) :=
        Length.resolve_of_evaluate hpart
      exact (decode_counted_matches_iff hresolve).mpr ⟨items, rfl, hrun, rfl⟩
  | branch alternatives ih => exact absurd branchFree BranchFree.not_branch
  | struct fields ih =>
    intro declared part r next bytes reads agrees spelled pass
    cases h with
    | struct names values =>
      rename_i members
      have hmembers : (([] ++ members).map Prod.fst).Nodup := by
        rw [List.nil_append, names]
        exact distinct.here
      refine decode_struct_matches_iff.mpr ⟨members, rfl, ?_⟩
      refine fieldRun_of_spelled names hmembers reads ?_ spelled pass
      intro pair hpair
      have hmem := (List.of_mem_zip hpair).1
      exact ih pair.1 hmem (branchFree.field hmem) (distinct.field hmem) (countsKnown.field hmem)
        (values pair hpair)

/-- Bytes are decoded to the last one exactly where they spell a conforming record. -/
theorem decodeRecord_eq_ok_length_iff {node : Node} (typed : node.Typed)
    (names : node.DistinctNames) (reads : node.ScopedIn none) (branchFree : node.BranchFree)
    (countsKnown : node.CountsKnown)
    {bytes : List UInt8} {record : Json} {wholly : Bool} {label : String} :
    (node.decodeRecord ⟨0, wholly, label⟩ bytes).1
        = .ok ⟨some record, bytes.length, bytes.length⟩
      ↔ node.Conforms none record ∧ Spelled (node.slots record) bytes := by
  rw [decodeRecord_eq_ok_some_iff]
  constructor
  · rintro ⟨-, next, hmatch, -, hstop, -⟩
    refine ⟨conforms_of_matches typed (Scope.Extends.refl _) hmatch, ?_⟩
    obtain ⟨region, hpass, hspelled⟩ := spelled_of_matches branchFree names hmatch
    have hoffset : next.offset = region.length := hpass.offset.trans (Nat.zero_add _)
    have hregion : region = bytes := by
      rw [hpass.eq_take, ← hoffset, ← hstop]
      exact List.take_length
    rwa [hregion] at hspelled
  · rintro ⟨hconforms, hspelled⟩
    have hpass := Reader.passes_ofBytes bytes []
    rw [List.append_nil] at hpass
    have hmatch := hconforms.readsBack branchFree names countsKnown none none _ _ _ reads
      (fun _ _ => rfl) hspelled hpass
    exact ⟨Nat.zero_le _, _, hmatch, fun _ => rfl, rfl, rfl⟩

end Node

end ByteRecord
