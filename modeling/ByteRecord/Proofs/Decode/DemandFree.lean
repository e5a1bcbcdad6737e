import ByteRecord.Proofs.Decode.Record
import ByteRecord.Proofs.FixedLayout.Reading
import ByteRecord.Proofs.FixedLayout.Writing
import ByteRecord.Proofs.Schema.Describing

/-!
# Schemas without references

Only a reference keeps bytes from matching. A schema without one matches wherever its bytes are there
and its lengths come to counts, and fails otherwise; that there is no match is no answer that it gives.
Branches are why this takes a compiled schema: one without alternatives would never match. It follows
that a field of a fixed layout is always decoded, and that the alternatives of a branch behind one
without references are out of reach.
-/

namespace ByteRecord

/-- Where bytes are not said not to match, they match or there is an error. -/
theorem Outcome.matches_or_fails {α : Type} {o : Outcome α} (h : o.verdict ≠ .noMatch) :
    (∃ value next, o.Matches value next) ∨ ∃ cause, o.Fails cause := by
  cases hverdict : o.verdict with
  | matched value => exact Or.inl ⟨value, o.reader, hverdict, rfl⟩
  | noMatch => exact absurd hverdict h
  | failed cause => exact Or.inr ⟨cause, hverdict⟩

/-- A slot whose tag demands nothing matches or fails. -/
theorem Tag.decode_ne_noMatch {tag : Tag} (free : tag.hasConstraint = false) {r : Reader} :
    (tag.decode r).verdict ≠ .noMatch := by
  intro h
  cases tag with
  | scalar tag =>
    simp only [decode, ScalarTag.decode, Outcome.map_noMatch_iff, Outcome.demanding_noMatch_iff,
      Outcome.skipping_noMatch_iff, Outcome.ofRead_ne_noMatch, ScalarTag.admits_of_free free,
      false_or] at h
    obtain ⟨value, mid, -, hadmits⟩ := h
    cases hadmits
  | string tag | cstring tag =>
    simp only [decode, Outcome.map_noMatch_iff, Outcome.demanding_noMatch_iff,
      Outcome.ofRead_ne_noMatch, TextTag.admits_of_free free, false_or] at h
    obtain ⟨value, mid, -, hadmits⟩ := h
    cases hadmits

namespace Node

/-- The node has an alternative, if it is a branch. -/
def HasAlternative : Node → Prop
  | branch alternatives => alternatives ≠ []
  | _ => True

/-- No branch in the schema is without alternatives. -/
abbrev Filled (node : Node) : Prop := node.All HasAlternative

/-- A compiled branch has two alternatives at the least. -/
theorem filled_of_compile {description : Json} {node : Node}
    (compiled : compile description = .ok node) : node.Filled := by
  refine (wellFormed_of_compileAt compiled).mono fun part hpart => ?_
  cases part with
  | branch alternatives =>
    rintro rfl
    exact Nat.not_lt_zero 1 hpart
  | _ => trivial

/-- A fixed node has no branch at all. -/
theorem Fixed.filled {node : Node} (fixed : node.Fixed) : node.Filled :=
  fixed.all (fun _ => trivial) (fun _ _ => trivial) fun _ => trivial

variable {node : Node} {scope : Scope} {r : Reader}

/-- A schema without references matches or fails. -/
theorem DemandFree.decode_ne_noMatch (free : node.DemandFree) (filled : node.Filled) :
    (node.decode scope r).verdict ≠ .noMatch := by
  intro h
  induction node generalizing scope r with
  | leaf tag =>
    rw [decode] at h
    exact Tag.decode_ne_noMatch free.here h
  | array element length ih =>
    obtain ⟨items, mid, -, helement⟩ := exists_of_decode_array_noMatch h
    exact ih free.element filled.element helement
  | branch alternatives ih =>
    obtain ⟨first, hfirst⟩ := List.exists_mem_of_ne_nil _ filled.here
    exact ih first hfirst (free.alternative hfirst) (filled.alternative hfirst)
      (decode_branch_noMatch_iff.mp h first hfirst)
  | struct fields ih =>
    obtain ⟨before, name, node, behind, added, mid, rfl, -, hnode⟩ := decode_struct_noMatch_iff.mp h
    have hfield : (name, node) ∈ before ++ (name, node) :: behind :=
      List.mem_append_right before List.mem_cons_self
    exact ih _ hfield (free.field hfield) (filled.field hfield) hnode

/-- Decoding fails for want of bytes, over a count, or over a field that an array length reads. -/
theorem bounds_or_lookup_of_decode_fails {cause : Error} (h : (node.decode scope r).Fails cause) :
    (∃ bounds, cause = .bounds bounds) ∨ ∃ lookup, cause = .schema (.lookup lookup) := by
  induction node generalizing scope r with
  | leaf tag =>
    rw [decode] at h
    exact Or.inl (Tag.bounds_of_decode_fails h)
  | array element length ih =>
    rcases cases_of_decode_array_fails h with hlength | hbounds | ⟨items, mid, -, helement⟩
    · rcases Length.cases_of_resolve_error hlength with hbounds | ⟨name, -, lookup, hlookup, -⟩
      · exact Or.inl hbounds
      · exact Or.inr ⟨lookup, hlookup⟩
    · exact Or.inl hbounds
    · exact ih helement
  | branch alternatives ih =>
    rw [decode, decodeFirst_fails_iff] at h
    obtain ⟨before, node, behind, rfl, -, hnode⟩ := h
    exact ih node (List.mem_append_right before List.mem_cons_self) hnode
  | struct fields ih =>
    obtain ⟨before, name, node, behind, added, mid, rfl, -, hnode⟩ := decode_struct_fails_iff.mp h
    exact ih _ (List.mem_append_right before List.mem_cons_self) hnode

/-- The alternatives of a branch that are decoded at a place: those that do not match, and behind them
the first one that matches or fails. -/
def tried (scope : Scope) (r : Reader) : List Node → List Node
  | [] => []
  | node :: rest =>
    match (node.decode scope r).verdict with
    | .noMatch => node :: tried scope r rest
    | _ => [node]

variable {alternatives before behind others : List Node} {total other index : Nat}

/-- What is decoded is what those that are tried come to. -/
theorem decodeFirst_tried :
    decodeFirst scope r total index (tried scope r alternatives)
      = decodeFirst scope r total index alternatives := by
  induction alternatives generalizing index with
  | nil => rfl
  | cons node rest ih =>
    rw [tried]
    cases hverdict : (node.decode scope r).verdict with
    | noMatch => rw [decodeFirst, decodeFirst, ih]
    | matched value | failed cause => simp only [decodeFirst, hverdict]

/-- Nothing is tried behind an alternative that matches or fails. -/
theorem tried_prefix_of_ne_noMatch (settles : (node.decode scope r).verdict ≠ .noMatch) :
    tried scope r (before ++ node :: behind) <+: before ++ [node] := by
  induction before with
  | nil =>
    rw [List.nil_append, List.nil_append, tried]
    cases hverdict : (node.decode scope r).verdict with
    | noMatch => exact absurd hverdict settles
    | matched value | failed cause => exact List.prefix_rfl
  | cons first before ih =>
    rw [List.cons_append, List.cons_append, tried]
    cases (first.decode scope r).verdict with
    | noMatch => exact (List.prefix_cons_inj first).mpr ih
    | matched value | failed cause => exact ⟨before ++ [node], rfl⟩

/-- What stands behind an alternative that matches or fails has no part in what is decoded. -/
theorem decodeFirst_of_ne_noMatch (settles : (node.decode scope r).verdict ≠ .noMatch) :
    decodeFirst scope r total index (before ++ node :: behind)
      = decodeFirst scope r other index (before ++ node :: others) := by
  induction before generalizing index with
  | nil =>
    rw [List.nil_append, List.nil_append, decodeFirst, decodeFirst]
    cases hverdict : (node.decode scope r).verdict with
    | noMatch => exact absurd hverdict settles
    | matched value | failed cause => rfl
  | cons first before ih =>
    rw [List.cons_append, List.cons_append, decodeFirst, decodeFirst, ih]

/-- Behind an alternative without references no other one is tried, if the node is a branch: the value,
the place and the events are those of the alternatives that are tried, and they are the same whichever
others stand behind it. -/
def SettlesAtFree : Node → Prop
  | branch alternatives =>
    ∀ before node behind, alternatives = before ++ node :: behind → node.hasConstraint = false →
      ∀ scope r, tried scope r alternatives <+: before ++ [node]
        ∧ (branch alternatives).decode scope r
          = decodeFirst scope r alternatives.length 0 (tried scope r alternatives)
        ∧ ∀ others, (branch alternatives).decode scope r
          = (branch (before ++ node :: others)).decode scope r
  | _ => True

theorem Filled.settlesAtFree (filled : node.Filled) : node.All SettlesAtFree := by
  induction node with
  | leaf tag => exact .leaf trivial
  | array element length ih => exact .array trivial (ih filled.element)
  | struct fields ih =>
    exact .struct trivial fun field hfield => ih field hfield (filled.field hfield)
  | branch alternatives ih =>
    refine .branch ?_ fun node hnode => ih node hnode (filled.alternative hnode)
    rintro before node behind rfl free scope r
    have hnode : node.Filled :=
      filled.alternative (List.mem_append_right before List.mem_cons_self)
    have settles : (node.decode scope r).verdict ≠ .noMatch :=
      (hasConstraint_eq_false_iff.mp free).decode_ne_noMatch hnode
    refine ⟨tried_prefix_of_ne_noMatch settles, ?_, fun others => ?_⟩
    · rw [decode, decodeFirst_tried]
    · rw [decode, decode]
      exact decodeFirst_of_ne_noMatch settles

end Node

namespace FixedLayout

variable {layout : FixedLayout} {bytes : List UInt8} {name : String}

/-- What is located is a field of the layout; otherwise the buffer is too short, or no field has the
name. -/
theorem locate_cases (layout : FixedLayout) (bytes : List UInt8) (name : String) :
    (∃ found ∈ layout.fields, layout.locate bytes name = .ok found)
      ∨ (∃ bounds, layout.locate bytes name = .error (.access (.bounds bounds)))
      ∨ layout.locate bytes name = .error (.unknownField name) := by
  rw [locate]
  by_cases hshort : bytes.length < layout.size.toNat
  · rw [if_pos hshort]
    exact Or.inr (Or.inl ⟨_, rfl⟩)
  · rw [if_neg hshort, FixedLayout.field]
    cases hfind : layout.fields.find? fun field => field.name == name with
    | none => exact Or.inr (Or.inr rfl)
    | some found => exact Or.inl ⟨found, List.mem_of_find?_eq_some hfind, rfl⟩

/-- The nodes of a layout are fixed and demand nothing. -/
theorem fixed_and_free_of_mem {node : Node} (built : ofNode node = .ok layout)
    {found : PlacedField} (h : found ∈ layout.fields) :
    found.node.Fixed ∧ found.node.DemandFree := by
  obtain ⟨fields, rfl, heach, rfl⟩ := ofNode_eq_ok built
  obtain ⟨source, hsource, hnode, -⟩ := exists_of_mem_placed h
  obtain ⟨hfixed, hfree⟩ := heach source hsource
  rw [hnode]
  exact ⟨hfixed, Node.hasConstraint_eq_false_iff.mp hfree⟩

/-- No field of a layout is refused because its bytes do not match. -/
theorem get_ne_fieldMismatch {node : Node} (built : ofNode node = .ok layout) (field : String) :
    layout.get bytes name ≠ .error (.access (.schema (.fieldMismatch field))) := by
  intro h
  rcases layout.locate_cases bytes name with
    ⟨found, hfound, hlocate⟩ | ⟨bounds, hlocate⟩ | hlocate
  · obtain ⟨hfixed, hfree⟩ := fixed_and_free_of_mem built hfound
    have hsettles : (found.node.decode none (Reader.ofBytes (found.slice bytes))).verdict
        ≠ .noMatch := hfree.decode_ne_noMatch hfixed.filled
    rcases Outcome.matches_or_fails hsettles with ⟨value, next, hvalue, -⟩ | ⟨cause, hcause⟩
    · simp only [get, hlocate, bind, Except.bind, hvalue] at h
      cases h
    · have hverdict := hcause
      rw [Outcome.Fails] at hverdict
      simp only [get, hlocate, bind, Except.bind, hverdict] at h
      cases h
      rcases Node.bounds_or_lookup_of_decode_fails hcause with ⟨bounds, hbounds⟩ | ⟨lookup, hlookup⟩
      · cases hbounds
      · cases hlookup
  · rw [get, hlocate] at h
    cases h
  · rw [get, hlocate] at h
    cases h

end FixedLayout

namespace Node

/-- A compiled schema without references matches or fails, in every scope and at every place: a record
or an error is reported from every offset within the bytes, unless more than the record is asked for.
So no field of a layout that is built from a compiled schema is refused for bytes that do not match,
and in none of its branches is an alternative tried behind one without references. -/
theorem demandFree_matches_or_fails {description : Json} {node : Node}
    (compiled : compile description = .ok node) :
    (node.hasConstraint = false →
      (∀ scope r, (∃ value next, (node.decode scope r).Matches value next)
          ∨ ∃ cause, (node.decode scope r).Fails cause)
      ∧ ∀ (offset : Nat) (label : String) (bytes : List UInt8), offset ≤ bytes.length →
        (∃ record stop consumed, (node.decodeRecord ⟨offset, false, label⟩ bytes).1
            = .ok ⟨some record, stop, consumed⟩)
          ∨ ∃ cause, (node.decodeRecord ⟨offset, false, label⟩ bytes).1 = .error cause)
    ∧ (∀ layout, FixedLayout.ofNode node = .ok layout → ∀ bytes name field,
        layout.get bytes name ≠ .error (.access (.schema (.fieldMismatch field))))
    ∧ node.All SettlesAtFree := by
  have filled := filled_of_compile compiled
  refine ⟨fun free => ?_, fun layout built bytes name field =>
    FixedLayout.get_ne_fieldMismatch built field, filled.settlesAtFree⟩
  have hfree := hasConstraint_eq_false_iff.mp free
  refine ⟨fun scope r => Outcome.matches_or_fails (hfree.decode_ne_noMatch filled), ?_⟩
  intro offset label bytes inside
  have hsettles : (node.decode none ((Reader.ofBytes bytes).advance offset)).verdict ≠ .noMatch :=
    hfree.decode_ne_noMatch filled
  rcases Outcome.matches_or_fails hsettles with ⟨value, next, hmatch⟩ | ⟨cause, hfails⟩
  · exact Or.inl ⟨value, _, _, decodeRecord_eq_ok_some_iff.mpr
      ⟨inside, next, hmatch, nofun, rfl, rfl⟩⟩
  · exact Or.inr ⟨cause, decodeRecord_eq_error_iff.mpr (Or.inr ⟨inside, hfails⟩)⟩

/-- Numbers of one or two bytes, as many as a first byte says, and texts up to the end of the data. -/
def runsDescription : Json :=
  .object [("n", .string "uint8"),
    ("xs", .array [.array [.string "uint16", .string "uint8"], .string "n"]),
    ("rest", .array [.string "cstring", .string "*"])]

/-- The schema of that description. -/
def runsNode : Node :=
  struct [("n", leaf (.scalar ⟨.uint8, .big, 0, none⟩)),
    ("xs", array (branch [leaf (.scalar ⟨.uint16, .big, 0, none⟩),
      leaf (.scalar ⟨.uint8, .big, 0, none⟩)]) (.field "n")),
    ("rest", array (leaf (.cstring ⟨0, none⟩)) .remainder)]

/-- A number that must be one, any byte, or a text. -/
def oneOrByteDescription : Json :=
  .array [.string "uint16=1", .string "uint8", .string "string:4"]

/-- The alternatives of that description. -/
def oneOrByteNodes : List Node :=
  [leaf (.scalar ⟨.uint16, .big, 0, some ⟨.integer 1, false⟩⟩),
    leaf (.scalar ⟨.uint8, .big, 0, none⟩), leaf (.string ⟨4, none⟩)]

/-- Of two numbers that run past the end there is a record or an error, a field of zeros is not refused
for what it holds, and the text behind any byte is not tried. -/
theorem demandFree_matches_or_fails_runs :
    ((∃ record stop consumed, (runsNode.decodeRecord ⟨1, false, ""⟩ [9, 2, 0, 1, 5]).1
        = .ok ⟨some record, stop, consumed⟩)
      ∨ ∃ cause, (runsNode.decodeRecord ⟨1, false, ""⟩ [9, 2, 0, 1, 5]).1 = .error cause)
    ∧ FixedLayout.textAndNumbersLayout.get (List.replicate 16 0) "xs"
      ≠ .error (.access (.schema (.fieldMismatch "xs")))
    ∧ tried none ⟨0, [7, 7, 7, 7]⟩ oneOrByteNodes <+: oneOrByteNodes.take 2 := by
  have hruns : compile runsDescription = .ok runsNode := rfl
  have hone : compile oneOrByteDescription = .ok (branch oneOrByteNodes) := rfl
  obtain ⟨hdecode, -⟩ := demandFree_matches_or_fails hruns
  obtain ⟨-, hget, -⟩ :=
    demandFree_matches_or_fails FixedLayout.compile_textAndNumbersDescription
  obtain ⟨-, -, hsettles⟩ := demandFree_matches_or_fails hone
  obtain ⟨-, hrecord⟩ := hdecode rfl
  have htried := hsettles.here _ _ _ (show oneOrByteNodes = [_] ++ _ :: _ from rfl) rfl
  exact ⟨hrecord 1 "" _ (by decide), hget _ FixedLayout.ofNode_textAndNumbersNode _ _ _,
    (htried none ⟨0, [7, 7, 7, 7]⟩).1⟩

end Node

end ByteRecord
