import ByteRecord.Proofs.Decode.Runs
import ByteRecord.Proofs.Schema.Tree

/-!
# How a node matches

What a match of an array, a branch or a struct says about its parts. The items of an array are a
`Run` of its element and the fields of a struct a `FieldRun`. Elements that are read in one go form
the same run as elements that are read one by one, so nothing else needs to distinguish the two.
-/

namespace ByteRecord

namespace Node

variable {scope : Scope} {element : Node} {value : Json} {tag : ScalarTag} {r next : Reader}
  {values : List Json} {length : Length} {count : Nat}

theorem decode_leaf (tag : Tag) : (leaf tag).decode scope = fun r => tag.decode r :=
  funext fun r => by rw [decode]

theorem decode_struct (fields : List (String × Node)) :
    (struct fields).decode scope = fun r => (decodeFields [] fields r).map .object :=
  funext fun r => by rw [decode]

/-- The items of an array whose length looks at nothing that remains are decoded one by one. -/
theorem decode_array_of_not_plain
    (hcount : ∀ remaining, length.resolve scope remaining = .ok (some count))
    (hplain : element.plainScalar? = none) :
    (array element length).decode scope = fun r =>
      (Outcome.repeated (element.decode scope) count count r).map .array := funext fun r => by
  rw [decode, hcount]
  simp only [hplain]

/-- The items of an array whose length looks at nothing that remains are read in one go if they are
plain scalars. -/
theorem decode_array_of_plain
    (hcount : ∀ remaining, length.resolve scope remaining = .ok (some count))
    (hplain : element.plainScalar? = some tag) :
    (array element length).decode scope = fun r =>
      (Outcome.ofRead r (r.scalars tag.type tag.order count)).map fun values =>
        .array (values.map fun value => .number value.toNumber) := funext fun r => by
  rw [decode, hcount]
  simp only [hplain]

/-- An element that is read in one go is a scalar of its natural width that nothing is demanded
of. -/
theorem plainScalar?_eq_some (h : element.plainScalar? = some tag) :
    element = leaf (.scalar tag) ∧ tag.padding = 0 ∧ tag.constraint = none := by
  unfold plainScalar? at h
  split at h
  · rename_i other
    split at h
    · rename_i hplain
      injection h with h
      subst h
      exact ⟨rfl, hplain.1, Option.isNone_iff_eq_none.mp hplain.2⟩
    · cases h
  · cases h

/-- A plain scalar matches whatever bytes stand in its slot. -/
theorem plain_matches_iff (h : element.plainScalar? = some tag) :
    (element.decode scope r).Matches value next ↔
      ∃ slot, r.Passes slot next ∧ slot.length = tag.type.size
        ∧ .number (tag.type.ofOctets tag.order slot).toNumber = value := by
  obtain ⟨rfl, hpadding, hconstraint⟩ := plainScalar?_eq_some h
  rw [decode, Tag.decode_matches_iff]
  constructor
  · rintro ⟨slot, hpass, hspells⟩
    cases hspells with
    | scalar hwidth hfill hadmits =>
      rename_i content fill
      rw [hpadding, List.length_eq_zero_iff] at hfill
      rw [hfill, List.append_nil] at hpass
      exact ⟨content, hpass, hwidth, rfl⟩
  · rintro ⟨slot, hpass, hwidth, rfl⟩
    refine ⟨slot, hpass, ?_⟩
    have hadmits : tag.admits (tag.type.ofOctets tag.order slot).toNumber = true := by
      rw [ScalarTag.admits, hconstraint]
      rfl
    have hfill : ([] : List UInt8).length = tag.padding := hpadding.symm
    have hspells := Tag.Spells.scalar hwidth hfill hadmits
    rwa [List.append_nil] at hspells

/-- Reading plain scalars in one go is a run of reading them one by one. -/
theorem run_plain_iff (h : element.plainScalar? = some tag) :
    Run (element.decode scope) r values next ↔
      ∃ bytes, r.Passes bytes next ∧ bytes.length = values.length * tag.type.size
        ∧ (tag.type.ofSlots tag.order values.length bytes).map
            (fun value => Json.number value.toNumber) = values := by
  induction values generalizing r with
  | nil =>
    constructor
    · intro run
      cases run with
      | nil => exact ⟨[], Reader.passes_nil _, by simp, rfl⟩
    · rintro ⟨bytes, hpass, hlen, -⟩
      rw [List.length_nil, Nat.zero_mul, List.length_eq_zero_iff] at hlen
      rw [hlen] at hpass
      rw [hpass.eq_advance]
      exact .nil
  | cons value values ih =>
    constructor
    · intro run
      cases run with
      | cons first rest =>
        obtain ⟨slot, hslot, hwidth, rfl⟩ := (plain_matches_iff h).mp first
        obtain ⟨bytes, hbytes, hlen, hvalues⟩ := ih.mp rest
        refine ⟨slot ++ bytes, hslot.append hbytes, ?_, ?_⟩
        · rw [List.length_append, List.length_cons, Nat.succ_mul, hwidth, hlen, Nat.add_comm]
        · rw [List.length_cons, ScalarType.ofSlots, ← hwidth, List.take_left, List.drop_left,
            List.map_cons, hvalues]
    · rintro ⟨bytes, hpass, hlen, hvalues⟩
      rw [List.length_cons, ScalarType.ofSlots, List.map_cons] at hvalues
      injection hvalues with hvalue hvalues
      rw [List.length_cons, Nat.succ_mul] at hlen
      have hwidth : (bytes.take tag.type.size).length = tag.type.size := by
        rw [List.length_take]
        omega
      have hsplit := List.take_append_drop tag.type.size bytes
      have hfirst : r.Passes (bytes.take tag.type.size)
          ⟨r.offset + tag.type.size, bytes.drop tag.type.size ++ next.rest⟩ :=
        ⟨by rw [hpass.rest, ← List.append_assoc, hsplit], by rw [hwidth]⟩
      have hrest : Reader.Passes
          ⟨r.offset + tag.type.size, bytes.drop tag.type.size ++ next.rest⟩
          (bytes.drop tag.type.size) next := by
        refine ⟨rfl, ?_⟩
        rw [hpass.offset, List.length_drop]
        dsimp only
        omega
      have hlength : (bytes.drop tag.type.size).length = values.length * tag.type.size := by
        rw [List.length_drop]
        omega
      have hmatch : (element.decode scope r).Matches value _ :=
        (plain_matches_iff h).mpr ⟨_, hfirst, hwidth, hvalue⟩
      exact .cons hmatch (ih.mpr ⟨_, hrest, hlength, hvalues⟩)

/-- An array of a known count matches exactly if so many elements form a run. -/
theorem decode_counted_matches_iff
    (hcount : length.resolve scope r.remaining = .ok (some count)) :
    ((array element length).decode scope r).Matches value next ↔
      ∃ items, value = .array items ∧ Run (element.decode scope) r items next
        ∧ items.length = count := by
  rw [decode, hcount]
  dsimp only
  split
  · rename_i tag hplain
    simp only [Outcome.map_matches_iff, Outcome.ofRead_matches_iff, Reader.scalars_eq_ok_iff]
    constructor
    · rintro ⟨scalars, ⟨bytes, hpass, hlen, rfl⟩, rfl⟩
      refine ⟨_, rfl, (run_plain_iff hplain).mpr ⟨bytes, hpass, ?_, ?_⟩, ?_⟩
      · rw [List.length_map, ScalarType.length_ofSlots, hlen]
      · rw [List.length_map, ScalarType.length_ofSlots]
      · rw [List.length_map, ScalarType.length_ofSlots]
    · rintro ⟨items, rfl, run, rfl⟩
      obtain ⟨bytes, hpass, hlen, hitems⟩ := (run_plain_iff hplain).mp run
      exact ⟨_, ⟨bytes, hpass, hlen, rfl⟩, by rw [hitems]⟩
  · rw [Outcome.map_matches_iff]
    constructor
    · rintro ⟨items, hitems, rfl⟩
      obtain ⟨run, hlen⟩ := Outcome.repeated_matches_iff.mp hitems
      exact ⟨items, rfl, run, hlen⟩
    · rintro ⟨items, rfl, run, hlen⟩
      exact ⟨items, Outcome.repeated_matches_iff.mpr ⟨run, hlen⟩, rfl⟩

/-- The first alternative that matches is the one that counts. -/
theorem decodeFirst_matches_iff {total index : Nat} {alternatives : List Node} :
    (decodeFirst scope r total index alternatives).Matches value next ↔
      ∃ before node behind, alternatives = before ++ node :: behind
        ∧ (∀ other ∈ before, (other.decode scope r).verdict = .noMatch)
        ∧ (node.decode scope r).Matches value next := by
  induction alternatives generalizing index with
  | nil =>
    constructor
    · rintro ⟨h, -⟩
      cases h
    · rintro ⟨before, node, behind, h, -⟩
      cases before <;> cases h
  | cons node rest ih =>
    rw [decodeFirst]
    dsimp only
    constructor
    · intro h
      split at h
      · rename_i other hother
        obtain ⟨hv, hr⟩ := h
        injection hv with hv
        subst hv
        exact ⟨[], node, rest, rfl, List.forall_mem_nil _, hother, hr⟩
      · obtain ⟨hv, -⟩ := h
        cases hv
      · rename_i hnone
        obtain ⟨before, found, behind, rfl, hbefore, hfound⟩ := ih.mp h
        exact ⟨node :: before, found, behind, rfl,
          List.forall_mem_cons.mpr ⟨hnone, hbefore⟩, hfound⟩
    · rintro ⟨before, found, behind, hlist, hbefore, hfound⟩
      cases before with
      | nil =>
        injection hlist with hnode hrest
        subst hnode
        rw [hfound.1]
        exact ⟨rfl, hfound.2⟩
      | cons first before =>
        injection hlist with hnode hrest
        subst hnode
        obtain ⟨hnone, hbefore⟩ := List.forall_mem_cons.mp hbefore
        rw [hnone]
        exact ih.mpr ⟨before, found, behind, hrest, hbefore, hfound⟩

theorem decode_branch_matches_iff {alternatives : List Node} :
    ((branch alternatives).decode scope r).Matches value next ↔
      ∃ before node behind, alternatives = before ++ node :: behind
        ∧ (∀ other ∈ before, (other.decode scope r).verdict = .noMatch)
        ∧ (node.decode scope r).Matches value next := by
  rw [decode]
  exact decodeFirst_matches_iff

/-- Fields match exactly if they form a run, whose members follow those that are done. -/
theorem decodeFields_matches_iff {done members : Members} {fields : List (String × Node)} :
    (decodeFields done fields r).Matches members next ↔
      ∃ added, members = done ++ added ∧ FieldRun done fields r added next := by
  induction fields generalizing done r with
  | nil =>
    rw [decodeFields, Outcome.matched_matches_iff]
    constructor
    · rintro ⟨rfl, rfl⟩
      exact ⟨[], (List.append_nil _).symm, .nil⟩
    · rintro ⟨added, rfl, run⟩
      cases run with
      | nil => exact ⟨(List.append_nil _).symm, rfl⟩
  | cons field fields ih =>
    obtain ⟨name, node⟩ := field
    rw [decodeFields, Outcome.andThen_matches_iff]
    constructor
    · rintro ⟨value, mid, hfirst, hrest⟩
      obtain ⟨added, rfl, run⟩ := ih.mp hrest
      exact ⟨(name, value) :: added, by rw [List.append_assoc, List.singleton_append],
        .cons (Outcome.noting_matches_iff.mp hfirst) run⟩
    · rintro ⟨added, rfl, run⟩
      cases run with
      | cons first rest =>
        exact ⟨_, _, Outcome.noting_matches_iff.mpr first,
          ih.mpr ⟨_, by rw [List.append_assoc, List.singleton_append], rest⟩⟩

theorem decode_struct_matches_iff {fields : List (String × Node)} :
    ((struct fields).decode scope r).Matches value next ↔
      ∃ members, value = .object members ∧ FieldRun [] fields r members next := by
  rw [decode, Outcome.map_matches_iff]
  constructor
  · rintro ⟨members, h, rfl⟩
    obtain ⟨added, hadded, run⟩ := decodeFields_matches_iff.mp h
    rw [List.nil_append] at hadded
    exact ⟨members, rfl, hadded ▸ run⟩
  · rintro ⟨members, rfl, run⟩
    exact ⟨members, decodeFields_matches_iff.mpr ⟨members, rfl, run⟩, rfl⟩

/-- An array that matches has a run of its element, for whose number its length stands. -/
theorem run_of_decode_array (forward : GoesForward (element.decode scope))
    (h : ((array element length).decode scope r).Matches value next) :
    ∃ items count?, value = .array items ∧ Run (element.decode scope) r items next
      ∧ length.resolve scope r.remaining = .ok count?
      ∧ ∀ count, count? = some count → items.length = count := by
  cases hresolve : length.resolve scope r.remaining with
  | error cause =>
    rw [decode, hresolve] at h
    obtain ⟨hv, -⟩ := h
    cases hv
  | ok count? =>
    cases count? with
    | none =>
      rw [decode, hresolve] at h
      obtain ⟨items, hitems, rfl⟩ := Outcome.map_matches_iff.mp h
      have hclimb := (Outcome.repeatedToEnd_matches_iff forward).mp hitems
      refine ⟨items, none, rfl, hclimb.1.run, rfl, ?_⟩
      intro count hcount
      cases hcount
    | some count =>
      obtain ⟨items, rfl, run, hlen⟩ := (decode_counted_matches_iff hresolve).mp h
      refine ⟨items, some count, rfl, run, rfl, ?_⟩
      intro other hother
      injection hother with hother
      rw [hlen, hother]

/-- Whatever matches goes forward over bytes. -/
theorem decode_goesForward (node : Node) (scope : Scope) : GoesForward (node.decode scope) := by
  induction node generalizing scope with
  | leaf tag =>
    intro r value next h
    rw [decode] at h
    obtain ⟨slot, hslot, -⟩ := Tag.decode_matches_iff.mp h
    exact ⟨slot, hslot⟩
  | array element length ih =>
    intro r value next h
    obtain ⟨items, -, -, run, -⟩ := run_of_decode_array (ih scope) h
    exact run.passes (ih scope)
  | branch alternatives ih =>
    intro r value next h
    obtain ⟨before, node, behind, rfl, -, hnode⟩ := decode_branch_matches_iff.mp h
    exact ih node (List.mem_append_right _ List.mem_cons_self) scope _ _ _ hnode
  | struct fields ih =>
    intro r value next h
    obtain ⟨members, -, run⟩ := decode_struct_matches_iff.mp h
    exact run.passes ih

/-- What a match of an array says: its items are a run of the element, and their number is the
count that its length stands for, if it stands for one. -/
theorem decode_array_matches
    (h : ((array element length).decode scope r).Matches value next) :
    ∃ items count?, value = .array items ∧ Run (element.decode scope) r items next
      ∧ length.resolve scope r.remaining = .ok count?
      ∧ ∀ count, count? = some count → items.length = count :=
  run_of_decode_array (element.decode_goesForward scope) h

end Node

end ByteRecord
