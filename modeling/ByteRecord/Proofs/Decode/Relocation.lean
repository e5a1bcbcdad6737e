import ByteRecord.Decode.Record
import ByteRecord.Proofs.Decode.Locality
import ByteRecord.Proofs.Json.Equality
import ByteRecord.Proofs.Length.Scope

/-!
# Decoding at another place

A record is decoded in the same way wherever it stands, and bytes behind it do not matter to a schema
that does not look at the end of the data. Both are statements about one comparison, of a node at a
place with the same node at this place among more bytes. The lengths of the node may be changed
meanwhile, as long as they come to the same counts.
-/

namespace ByteRecord

/-- A change of lengths that changes no count. Where a length has no count, it may fail in another way
of the same kind. -/
def KeepsCounts (f : Length → Length) : Prop :=
  ∀ (length : Length) (scope : Scope) (remaining : Nat),
    SameKind (length.resolve scope remaining) ((f length).resolve scope remaining)

theorem keepsCounts_id : KeepsCounts id := fun _ _ _ => SameKind.refl _

variable {before : Nat} {behind : List UInt8} {scope : Scope}

/-- What a slot holds depends on its own bytes. -/
theorem ScalarTag.decode_within (tag : ScalarTag) (r : Reader) :
    Outcome.Follows before behind (tag.decode r) (tag.decode (r.within before behind)) :=
  ((((Outcome.Follows.ofRead (Local.scalar _ _) r).map _).skipping _).demanding _ _ _)

theorem Tag.decode_within (tag : Tag) (r : Reader) :
    Outcome.Follows before behind (tag.decode r) (tag.decode (r.within before behind)) := by
  cases tag with
  | scalar tag => exact (tag.decode_within r).map _
  | string tag => exact (((Outcome.Follows.ofRead (Local.fixedText _) r).map _).demanding _ _ _).map _
  | cstring tag =>
    by_cases hwidth : tag.paddedTo.toNat = 0
    · simp only [Tag.decode, hwidth]
      exact (((Outcome.Follows.ofRead Local.terminatedText_zero r).map _).demanding _ _ _).map _
    · have hread := Local.terminatedText hwidth
      exact (((Outcome.Follows.ofRead hread r).map _).demanding _ _ _).map _

/-- A length that does not look at the end of the data comes to the same wherever that is. -/
theorem Length.resolve_eq_evaluate {element : Node} {length : Length}
    (known : (Node.array element length).CountKnown) (remaining : Nat) :
    length.resolve scope remaining = length.evaluate scope := by
  cases length with
  | fromEnd back => exact known.elim
  | _ => rfl

/-- Such a length has a count, unless it fails. -/
theorem Length.resolve_ne_none {element : Node} {length : Length}
    (known : (Node.array element length).CountKnown) (remaining : Nat) :
    length.resolve scope remaining ≠ .ok none := by
  intro h
  rw [resolve_eq_evaluate known] at h
  rcases eq_of_evaluate_eq_none h with rfl | ⟨back, rfl⟩
  · exact known
  · exact known

namespace Node

theorem plainScalar?_mapLengths (f : Length → Length) (node : Node) :
    (node.mapLengths f).plainScalar? = node.plainScalar? := by
  cases node <;> rfl

/-- A branch follows if its alternatives do: it takes the same one. -/
theorem decodeFirst_within {f : Length → Length} {alternatives : List Node}
    (each : ∀ node ∈ alternatives, ∀ r, Outcome.Follows before behind (node.decode scope r)
      ((node.mapLengths f).decode scope (r.within before behind)))
    (total other index : Nat) (r : Reader) :
    Outcome.Follows before behind (decodeFirst scope r total index alternatives)
      (decodeFirst scope (r.within before behind) other index
        (alternatives.map (mapLengths f))) := by
  induction alternatives generalizing index with
  | nil => exact Outcome.follows_of_noMatch rfl rfl
  | cons node rest ih =>
    obtain ⟨hnode, hrest⟩ := List.forall_mem_cons.mp each
    have hfirst := hnode r
    have hlater := ih hrest (index + 1)
    rw [List.map_cons, decodeFirst, decodeFirst]
    cases hverdict : (node.decode scope r).verdict with
    | matched value =>
      obtain ⟨hother, hreader⟩ := hfirst.matched ⟨hverdict, rfl⟩
      simp only [hother]
      exact Outcome.Matches.follows ⟨rfl, rfl⟩ ⟨rfl, hreader⟩
    | noMatch =>
      have hother := hfirst.noMatch hverdict
      simp only [hother]
      exact ⟨hlater.matched, hlater.noMatch, hlater.failed⟩
    | failed cause =>
      refine ⟨fun hm => ?_, fun hn => ?_, fun hf kept => ?_⟩
      · cases hm.1
      · cases hn
      · rw [Outcome.Fails, Verdict.failed.injEq] at hf
        subst hf
        obtain ⟨later, hother, hkind⟩ := hfirst.failed hverdict kept
        rw [Outcome.Fails] at hother
        simp only [hother]
        exact ⟨later, rfl, hkind⟩

/-- A struct follows if its fields do: each sees the same members. -/
theorem decodeFields_within {f : Length → Length} {fields : List (String × Node)}
    (each : ∀ field ∈ fields, ∀ scope r, Outcome.Follows before behind (field.2.decode scope r)
      ((field.2.mapLengths f).decode scope (r.within before behind)))
    (done : Members) (r : Reader) :
    Outcome.Follows before behind (decodeFields done fields r)
      (decodeFields done (fields.map fun field => (field.1, field.2.mapLengths f))
        (r.within before behind)) := by
  induction fields generalizing done r with
  | nil => exact Outcome.follows_matched done r
  | cons field rest ih =>
    obtain ⟨name, node⟩ := field
    obtain ⟨hnode, hrest⟩ := List.forall_mem_cons.mp each
    rw [List.map_cons, decodeFields, decodeFields]
    exact ((hnode (some done) r).noting _ _).andThen fun value mid => ih hrest _ mid

/-- A node is decoded among more bytes as it is without them, if none of these are added behind or if
the node does not look at the end. -/
theorem decode_within {f : Length → Length} (keeps : KeepsCounts f) (node : Node)
    (free : behind = [] ∨ node.CountsKnown) (scope : Scope) (r : Reader) :
    Outcome.Follows before behind (node.decode scope r)
      ((node.mapLengths f).decode scope (r.within before behind)) := by
  induction node generalizing scope r with
  | leaf tag =>
    rw [mapLengths, decode, decode]
    exact tag.decode_within r
  | array element length ih =>
    have helement := fun r => ih (free.imp_right All.element) scope r
    have hlength : SameKind (length.resolve scope r.remaining)
        ((f length).resolve scope (r.within before behind).remaining) := by
      have hsame : length.resolve scope r.remaining
          = length.resolve scope (r.within before behind).remaining := by
        rcases free with hbehind | known
        · rw [Reader.remaining_within, hbehind, List.length_nil, Nat.add_zero]
        · rw [Length.resolve_eq_evaluate known.here, Length.resolve_eq_evaluate known.here]
      rw [hsame]
      exact keeps _ _ _
    rw [mapLengths, decode, decode, plainScalar?_mapLengths]
    generalize hcount : length.resolve scope r.remaining = count at hlength ⊢
    generalize (f length).resolve scope (r.within before behind).remaining = other at hlength ⊢
    cases hlength with
    | error kind => exact Outcome.Fails.follows rfl rfl kind
    | ok count? =>
      cases count? with
      | none =>
        -- The array runs to the end, so the end must be where it was.
        have hbehind : behind = [] :=
          free.resolve_right fun known => Length.resolve_ne_none known.here _ hcount
        subst hbehind
        exact (Outcome.Follows.repeatedToEnd helement r).map _
      | some count =>
        dsimp only
        cases element.plainScalar? with
        | none => exact (Outcome.Follows.repeated helement count count r).map _
        | some tag => exact (Outcome.Follows.ofRead (Local.scalars _ _ _) r).map _
  | branch alternatives ih =>
    rw [mapLengths, decode, decode, mapLengthsAll_eq_map]
    refine decodeFirst_within (fun node hnode r => ?_) _ _ 0 r
    exact ih node hnode (free.imp_right fun known => known.alternative hnode) scope r
  | struct fields ih =>
    rw [mapLengths, decode, decode, mapLengthsFields_eq_map]
    refine (decodeFields_within (fun field hfield scope r => ?_) [] r).map _
    exact ih field hfield (free.imp_right fun known => known.field hfield) scope r

end Node

/-- The result with the record `before` bytes further on. -/
def Decoded.moved (result : Decoded) (before : Nat) : Decoded :=
  ⟨result.record, before + result.stop, result.consumed⟩

namespace Node

variable {node other : Node} {options options' : DecodeOptions} {bytes bytes' : List UInt8}

/-- What is decoded at two places gives the same result, if the data end behind both of them after
the same bytes. -/
theorem decodeRecord_sameKind (inside : options.offset ≤ bytes.length)
    (inside' : options'.offset ≤ bytes'.length) (hoffset : options'.offset = before + options.offset)
    (hwholly : options'.wholly = options.wholly)
    (follows : Outcome.Follows before []
      (node.decode none ((Reader.ofBytes bytes).advance options.offset))
      (other.decode none ((Reader.ofBytes bytes').advance options'.offset))) :
    SameKind ((node.decodeRecord options bytes).1.map (·.moved before))
      (other.decodeRecord options' bytes').1 := by
  unfold decodeRecord
  rw [if_neg (Nat.not_lt.mpr inside), if_neg (Nat.not_lt.mpr inside')]
  generalize node.decode none _ = o at follows ⊢
  generalize other.decode none _ = later at follows ⊢
  dsimp only
  cases hverdict : o.verdict with
  | failed cause =>
    obtain ⟨cause', hlater, hkind⟩ := follows.failed hverdict (Or.inl rfl)
    rw [Outcome.Fails] at hlater
    simp only [hlater]
    exact .error hkind
  | noMatch =>
    simp only [follows.noMatch hverdict, hoffset]
    exact .ok _
  | matched value =>
    obtain ⟨hlater, hreader⟩ := follows.matched ⟨hverdict, rfl⟩
    simp only [hlater, hreader, hwholly, Reader.atEnd_within_nil, hoffset]
    by_cases htrailing : (options.wholly && !o.reader.atEnd) = true
    · rw [if_pos htrailing, if_pos htrailing]
      exact .ok _
    · rw [if_neg htrailing, if_neg htrailing]
      have hconsumed : before + o.reader.offset - (before + options.offset)
          = o.reader.offset - options.offset := by omega
      rw [Reader.within, hconsumed]
      exact .ok _

/-- A record is decoded where it stands as it is decoded on its own: with the same value and as many
bytes, or not at all, or with an error of the same kind. -/
theorem decodeRecord_drop {offset : Nat} (inside : offset ≤ bytes.length) (wholly : Bool)
    (label : String) :
    SameKind ((node.decodeRecord ⟨0, wholly, label⟩ (bytes.drop offset)).1.map (·.moved offset))
      (node.decodeRecord ⟨offset, wholly, label⟩ bytes).1 := by
  have hplace : ((Reader.ofBytes (bytes.drop offset)).advance 0).within offset []
      = (Reader.ofBytes bytes).advance offset := by
    simp only [Reader.ofBytes, Reader.advance, Reader.within, List.drop_zero, List.append_nil,
      Nat.add_zero, Nat.zero_add]
  have follows : Outcome.Follows offset [] _ _ :=
    decode_within keepsCounts_id node (Or.inl rfl) none
      ((Reader.ofBytes (bytes.drop offset)).advance 0)
  rw [mapLengths_id, hplace] at follows
  exact decodeRecord_sameKind (Nat.zero_le _) inside rfl rfl follows

/-- A kind of two alternatives, all but the last four bytes behind it, and the texts in these. -/
def tailNode : Node :=
  struct [
    ("kind", branch [leaf (.scalar ⟨.uint16, .big, 0, some ⟨.integer 1, false⟩⟩),
      leaf (.scalar ⟨.uint8, .big, 0, none⟩)]),
    ("body", array (leaf (.scalar ⟨.uint8, .big, 0, none⟩)) (.fromEnd (-4))),
    ("texts", array (leaf (.cstring ⟨0, none⟩)) .remainder)]

/-- Its record behind two other bytes: the first alternative fails there as it does at the start. -/
theorem decodeRecord_drop_tail :
    (tailNode.decodeRecord ⟨2, true, ""⟩ [9, 9, 2, 7, 8, 0x61, 0, 0x62, 0]).1
      = .ok ⟨some (.object [("kind", .number (.unsigned 2)),
          ("body", .array [.number (.unsigned 7), .number (.unsigned 8)]),
          ("texts", .array [.string "a", .string "b"])]), 9, 7⟩ := by
  have hfirst : (tailNode.decodeRecord ⟨0, true, ""⟩ [2, 7, 8, 0x61, 0, 0x62, 0]).1
      = .ok ⟨some (.object [("kind", .number (.unsigned 2)),
          ("body", .array [.number (.unsigned 7), .number (.unsigned 8)]),
          ("texts", .array [.string "a", .string "b"])]), 7, 7⟩ :=
    eq_ok_of_toOption (by decide +kernel)
  have hmoved : SameKind
      ((tailNode.decodeRecord ⟨0, true, ""⟩
        ([9, 9, 2, 7, 8, 0x61, 0, 0x62, 0].drop 2)).1.map (·.moved 2))
      (tailNode.decodeRecord ⟨2, true, ""⟩ [9, 9, 2, 7, 8, 0x61, 0, 0x62, 0]).1 :=
    decodeRecord_drop (by decide) true ""
  rw [List.drop_succ_cons, List.drop_succ_cons, List.drop_zero, hfirst] at hmoved
  exact hmoved.eq_ok rfl

/-- Where no length looks at the end of the data, bytes that follow change neither a record nor that
there is none. -/
theorem decodeRecord_append (known : node.CountsKnown) (anywhere : options.wholly = false)
    {result : Decoded} (h : (node.decodeRecord options bytes).1 = .ok result)
    (suffix : List UInt8) : (node.decodeRecord options (bytes ++ suffix)).1 = .ok result := by
  unfold decodeRecord at h ⊢
  by_cases hinside : bytes.length < options.offset
  · rw [if_pos hinside] at h
    cases h
  · have hlonger : ¬ (bytes ++ suffix).length < options.offset := by
      rw [List.length_append]
      omega
    have hplace : ((Reader.ofBytes bytes).advance options.offset).within 0 suffix
        = (Reader.ofBytes (bytes ++ suffix)).advance options.offset := by
      have hdrop : (bytes ++ suffix).drop options.offset = bytes.drop options.offset ++ suffix :=
        List.drop_append_of_le_length (Nat.not_lt.mp hinside)
      simp only [Reader.ofBytes, Reader.advance, Reader.within, Nat.zero_add, hdrop]
    have follows : Outcome.Follows 0 suffix _ _ :=
      decode_within keepsCounts_id node (Or.inr known) none
        ((Reader.ofBytes bytes).advance options.offset)
    rw [mapLengths_id, hplace] at follows
    rw [if_neg hinside] at h
    rw [if_neg hlonger]
    generalize node.decode none ((Reader.ofBytes bytes).advance options.offset) = o at h follows
    generalize node.decode none _ = later at follows ⊢
    dsimp only at h ⊢
    cases hverdict : o.verdict with
    | failed cause =>
      rw [hverdict] at h
      cases h
    | noMatch =>
      rw [follows.noMatch hverdict]
      rwa [hverdict] at h
    | matched value =>
      obtain ⟨hlater, hreader⟩ := follows.matched ⟨hverdict, rfl⟩
      rw [hverdict] at h
      rw [hlater, hreader]
      simpa only [anywhere, Bool.false_and, Bool.false_eq_true, if_false, Reader.within,
        Nat.zero_add] using h

end Node

end ByteRecord
