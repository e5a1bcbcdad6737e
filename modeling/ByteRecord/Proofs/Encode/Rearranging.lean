import Mathlib.Logic.Relation
import ByteRecord.Encode.Basic
import ByteRecord.Proofs.RoundTrip.Alike

/-!
# What encoding is blind to

Encoding looks up the members that a schema names and nothing else. Neither the order of the members
of an object nor a member that the struct does not declare shows in what is written, in the length
of an array or in an error, however deep in the record it is. For array lengths this rests on what
compiling guarantees: they read declared fields only.
-/

namespace ByteRecord

namespace Members

variable {members others before behind : Members} {name key : String} {value : Json}

/-- A member of another name does not matter for a look-up. -/
theorem find?_append_cons_of_ne (h : name ≠ key) :
    find? (before ++ (key, value) :: behind) name = find? (before ++ behind) name := by
  rw [find?, find?, List.lookup_append, List.lookup_append, ← find?, ← find?, ← find?,
    find?_cons_of_ne h]

/-- Where names differ, the order of the members does not matter. -/
theorem find?_perm (distinct : (members.map Prod.fst).Nodup) (perm : members.Perm others)
    (name : String) : members.find? name = others.find? name := by
  have hnames := perm.map Prod.fst
  by_cases hmem : name ∈ members.map Prod.fst
  · obtain ⟨⟨key, value⟩, hentry, rfl⟩ := List.mem_map.mp hmem
    rw [find?_of_mem distinct hentry,
      find?_of_mem (hnames.nodup_iff.mp distinct) (perm.mem_iff.mp hentry)]
  · rw [find?_eq_none hmem, find?_eq_none fun h => hmem (hnames.mem_iff.mpr h)]

end Members

namespace Node

/-- A record is another one with the members of one object in another order, or with one member
more or less that the struct does not declare. The object may stand anywhere a struct of the schema
applies. -/
inductive Rearranges : Node → Json → Json → Prop
  /-- The members of an object in another order. -/
  | permute {fields : List (String × Node)} {members others : Members}
      (distinct : (members.map Prod.fst).Nodup) (perm : members.Perm others) :
      Rearranges (.struct fields) (.object members) (.object others)
  /-- A member more that is not declared. -/
  | add {fields : List (String × Node)} {before behind : Members} {name : String} {value : Json}
      (undeclared : name ∉ fields.map Prod.fst) :
      Rearranges (.struct fields) (.object (before ++ behind))
        (.object (before ++ (name, value) :: behind))
  /-- A member less that is not declared. -/
  | remove {fields : List (String × Node)} {before behind : Members} {name : String} {value : Json}
      (undeclared : name ∉ fields.map Prod.fst) :
      Rearranges (.struct fields) (.object (before ++ (name, value) :: behind))
        (.object (before ++ behind))
  /-- Another value of a declared member. -/
  | field {fields : List (String × Node)} {before behind : Members} {name : String} {node : Node}
      {value other : Json} (declared : (name, node) ∈ fields)
      (below : Rearranges node value other) :
      Rearranges (.struct fields) (.object (before ++ (name, value) :: behind))
        (.object (before ++ (name, other) :: behind))
  /-- Another item of an array. -/
  | item {element : Node} {length : Length} {before behind : List Json} {value other : Json}
      (below : Rearranges element value other) :
      Rearranges (.array element length) (.array (before ++ value :: behind))
        (.array (before ++ other :: behind))
  /-- Another value of an alternative. -/
  | alternative {alternatives : List Node} {node : Node} {value other : Json}
      (mem : node ∈ alternatives) (below : Rearranges node value other) :
      Rearranges (.branch alternatives) value other

variable {element node : Node} {length : Length} {fields : List (String × Node)}
  {value other record : Json} {members others : Members}

/-- A value that is rearranged is an array or an object and stays one, so it is no number. -/
theorem Rearranges.ne_number (h : node.Rearranges value other) :
    (∀ n, value ≠ .number n) ∧ ∀ n, other ≠ .number n := by
  induction h with
  | alternative mem below ih => exact ih
  | _ => exact ⟨nofun, nofun⟩

/-- Partners of the same list are the same. -/
theorem forall_mem_zip_self {p : Json × Json → Prop} {items : List Json}
    (each : ∀ item, p (item, item)) : ∀ pair ∈ items.zip items, p pair := by
  intro pair hpair
  rw [List.zip_eq_zipWith, List.zipWith_self] at hpair
  obtain ⟨item, -, rfl⟩ := List.mem_map.mp hpair
  exact each item

/-- An array that is rearranged has as many items, and each is the same or rearranged. -/
theorem Rearranges.exists_items (h : (array element length).Rearranges value other) :
    ∃ xs ys, value = .array xs ∧ other = .array ys ∧ xs.length = ys.length
      ∧ ∀ pair ∈ xs.zip ys, pair.1 = pair.2 ∨ element.Rearranges pair.1 pair.2 := by
  have hsame : ∀ items : List Json, ∀ pair ∈ items.zip items,
      pair.1 = pair.2 ∨ element.Rearranges pair.1 pair.2 := fun items =>
    forall_mem_zip_self fun _ => Or.inl rfl
  cases h with
  | item below =>
    refine ⟨_, _, rfl, rfl, by simp, ?_⟩
    rw [List.zip_append rfl, List.zip_cons_cons, List.forall_mem_append, List.forall_mem_cons]
    exact ⟨hsame _, Or.inr below, hsame _⟩

/-- Two objects agree on a field: none of them has it, or both do, with the same value or with one
that is rearranged. -/
def FoundAlike (members others : Members) (field : String × Node) : Prop :=
  (members.find? field.1 = none ∧ others.find? field.1 = none)
    ∨ ∃ value other, members.find? field.1 = some value ∧ others.find? field.1 = some other
        ∧ (value = other ∨ field.2.Rearranges value other)

/-- Objects agree on a field that has the same value in both. -/
theorem foundAlike_of_find?_eq {field : String × Node}
    (same : members.find? field.1 = others.find? field.1) : FoundAlike members others field := by
  cases hvalue : members.find? field.1 with
  | none => exact Or.inl ⟨hvalue, same ▸ hvalue⟩
  | some value => exact Or.inr ⟨value, value, hvalue, same ▸ hvalue, Or.inl rfl⟩

/-- An object that is rearranged stays one, and the two agree on the fields of the struct. -/
theorem Rearranges.exists_members (distinct : (fields.map Prod.fst).Nodup)
    (h : (struct fields).Rearranges value other) :
    ∃ members others, value = .object members ∧ other = .object others
      ∧ ∀ field ∈ fields, FoundAlike members others field := by
  cases h with
  | permute names perm =>
    exact ⟨_, _, rfl, rfl, fun field _ =>
      foundAlike_of_find?_eq (Members.find?_perm names perm field.1)⟩
  | add undeclared =>
    refine ⟨_, _, rfl, rfl, fun field hfield => foundAlike_of_find?_eq ?_⟩
    have hname := List.mem_map_of_mem (f := Prod.fst) hfield
    rw [Members.find?_append_cons_of_ne (ne_of_mem_of_not_mem hname undeclared)]
  | remove undeclared =>
    refine ⟨_, _, rfl, rfl, fun field hfield => foundAlike_of_find?_eq ?_⟩
    have hname := List.mem_map_of_mem (f := Prod.fst) hfield
    rw [Members.find?_append_cons_of_ne (ne_of_mem_of_not_mem hname undeclared)]
  | field declared below =>
    rename_i before behind name node value other
    refine ⟨_, _, rfl, rfl, fun field hfield => ?_⟩
    by_cases hname : field.1 = name
    · obtain rfl : field = (name, node) := List.inj_on_of_nodup_map distinct hfield declared hname
      cases hfind : before.find? name with
      | some first =>
        exact Or.inr ⟨first, first, Members.find?_append_of_eq_some hfind,
          Members.find?_append_of_eq_some hfind, Or.inl rfl⟩
      | none =>
        have hnew : name ∉ before.map Prod.fst := fun hmem => by
          obtain ⟨first, hfirst⟩ := Members.exists_find? hmem
          rw [hfind] at hfirst
          cases hfirst
        refine Or.inr ⟨value, other, ?_, ?_, Or.inr below⟩
        · rw [Members.find?_append_of_notMem hnew, Members.find?_cons_self]
        · rw [Members.find?_append_of_notMem hnew, Members.find?_cons_self]
    · refine foundAlike_of_find?_eq ?_
      rw [Members.find?_append_cons_of_ne hname, Members.find?_append_cons_of_ne hname]

/-- Objects that agree on the fields of a struct hold the same numbers in them. -/
theorem agrees_of_foundAlike {names : List String}
    (alike : ∀ field ∈ fields, FoundAlike members others field)
    (declared : ∀ name ∈ names, name ∈ fields.map Prod.fst) :
    Agrees (some names) (some members) (some others) := by
  intro name hname
  have hmem := declared name (List.contains_iff_mem.mp hname)
  obtain ⟨field, hfield, rfl⟩ := List.mem_map.mp hmem
  unfold Scope.number
  rcases alike field hfield with ⟨hnone, hnone'⟩ | ⟨value, other, hvalue, hother, rfl | hbelow⟩
  · simp only [hnone, hnone']
  · simp only [hvalue, hother]
  · obtain ⟨hleft, hright⟩ := hbelow.ne_number
    simp only [hvalue, hother]

/-- A value and what it is rearranged to have the same plan, where the declared fields have the same
numbers. -/
theorem plan_of_rearranges {declared : Declared} {left right : Scope} {path : Path}
    (distinct : node.DistinctNames) (reads : node.ScopedIn declared)
    (agrees : Agrees declared left right) (h : value = other ∨ node.Rearranges value other) :
    node.plan left path value = node.plan right path other := by
  induction node generalizing declared left right path value other with
  | leaf tag =>
    rcases h with rfl | h
    · rw [plan, plan]
    · cases h
  | array element length ih =>
    obtain ⟨hfields, helement⟩ := reads
    have hitems : ∀ {xs ys : List Json}, xs.length = ys.length →
        (∀ pair ∈ xs.zip ys, pair.1 = pair.2 ∨ element.Rearranges pair.1 pair.2) →
          (array element length).plan left path (.array xs)
            = (array element length).plan right path (.array ys) := by
      intro xs ys hlength heach
      have hrow : Plan.forItems (fun path item => element.plan left path item) path 0 xs
          = Plan.forItems (fun path item => element.plan right path item) path 0 ys :=
        Plan.forItems_congr hlength fun pair hpair path =>
          ih distinct.element helement agrees (heach pair hpair)
      rw [plan, plan]
      simp only [length.mismatch?_congr hfields agrees, hlength, hrow]
    rcases h with rfl | h
    · cases value with
      | array items => exact hitems rfl (forall_mem_zip_self fun _ => Or.inl rfl)
      | _ => rfl
    · obtain ⟨xs, ys, rfl, rfl, hlength, heach⟩ := h.exists_items
      exact hitems hlength heach
  | branch alternatives ih => rw [plan, plan]
  | struct fields ih =>
    have hmembers : ∀ {members others : Members},
        (∀ field ∈ fields, FoundAlike members others field) →
          (struct fields).plan left path (.object members)
            = (struct fields).plan right path (.object others) := by
      intro members others alike
      rw [plan, plan]
      refine planFields_congr fun field hfield => ?_
      rcases alike field hfield with hnone | ⟨value, other, hvalue, hother, hplan⟩
      · exact Or.inl hnone
      obtain ⟨before, behind, rfl⟩ := List.append_of_mem hfield
      have hnode : field.2.ScopedIn (some (before.map Prod.fst)) := FieldsScopedIn.scopedIn reads
      have hagrees : Agrees (some (before.map Prod.fst)) (some members) (some others) := by
        refine agrees_of_foundAlike alike fun name hname => ?_
        rw [List.map_append]
        exact List.mem_append_left _ hname
      exact Or.inr ⟨value, other, hvalue, hother,
        ih field hfield (distinct.field hfield) hnode hagrees hplan⟩
    rcases h with rfl | h
    · cases value with
      | object members => exact hmembers fun _ _ => foundAlike_of_find?_eq rfl
      | _ => rfl
    · obtain ⟨members, others, rfl, rfl, alike⟩ := h.exists_members distinct.here
      exact hmembers alike

/-- A record and what it is rearranged to in any number of steps have the same plan. -/
theorem plan_of_rearranged {path : Path} (distinct : node.DistinctNames)
    (reads : node.ScopedIn none) (h : Relation.ReflTransGen node.Rearranges record other) :
    node.plan none path record = node.plan none path other := by
  induction h with
  | refl => rfl
  | tail _ step ih =>
    exact ih.trans (plan_of_rearranges distinct reads (fun _ _ => rfl) (Or.inr step))

/-- Encoding depends only on what the schema names. Records that differ in the order of members,
and in members that are not declared where they stand, are encoded with the same outcome: the same
bytes or the same error, into fresh bytes as well as into a cursor. -/
theorem encode_of_rearranged {description : Json} (distinct : description.DistinctKeys)
    (compiled : compile description = .ok node)
    (rearranged : Relation.ReflTransGen node.Rearranges record other) :
    (∀ capacity order, node.encode record capacity order = node.encode other capacity order)
      ∧ ∀ c offset, node.encodeInto record c offset = node.encodeInto other c offset := by
  have hplan : node.plan none .root record = node.plan none .root other :=
    plan_of_rearranged (distinctNames_of_compile distinct compiled) (scopedIn_of_compile compiled)
      rearranged
  have hencode : ∀ c, node.encodeAt .root record c = node.encodeAt .root other c := by
    intro c
    rw [encodeAt, encodeAt, hplan]
  refine ⟨fun capacity order => ?_, fun c offset => ?_⟩
  · rw [encode, encode, hencode]
  · rw [encodeInto, encodeInto, hencode]

/-- Describes rows of counted numbers behind their count. -/
def rowsDescription : Json :=
  .object [("n", .string "uint8"),
    ("rows", .array [.object [("k", .string "uint8"),
      ("xs", .array [.string "uint8", .string "k"])], .string "n"])]

/-- The schema of a row. -/
def rowNode : Node :=
  struct [("k", leaf (.scalar ⟨.uint8, .big, 0, none⟩)),
    ("xs", array (leaf (.scalar ⟨.uint8, .big, 0, none⟩)) (.field "k"))]

/-- The schema of that description. -/
def rowsNode : Node :=
  struct [("n", leaf (.scalar ⟨.uint8, .big, 0, none⟩)), ("rows", array rowNode (.field "n"))]

/-- A record with the given members in its second row. -/
def rowsRecord (row : Members) : Json :=
  .object [("n", .number (.unsigned 2)),
    ("rows", .array [.object [("k", .number (.unsigned 0)), ("xs", .array [])], .object row])]

/-- Two numbers and their count. -/
def countedMembers : Members :=
  [("k", .number (.unsigned 2)), ("xs", .array [.number (.unsigned 7), .number (.unsigned 8)])]

/-- The count behind the numbers, with a count of rows that a row does not declare. -/
def mixedMembers : Members :=
  [("xs", .array [.number (.unsigned 7), .number (.unsigned 8)]), ("n", .number (.unsigned 9)),
    ("k", .number (.unsigned 2))]

theorem distinctKeys_rowsDescription : rowsDescription.DistinctKeys := by
  refine .object (by decide) ?_
  simp only [List.forall_mem_cons]
  refine ⟨.string, .array ?_, List.forall_mem_nil _⟩
  simp only [List.forall_mem_cons]
  refine ⟨.object (by decide) ?_, .string, List.forall_mem_nil _⟩
  simp only [List.forall_mem_cons]
  refine ⟨.string, .array ?_, List.forall_mem_nil _⟩
  simp only [List.forall_mem_cons]
  exact ⟨.string, .string, List.forall_mem_nil _⟩

/-- A change of the second row is a change of the record. -/
theorem rearranges_rowsRecord {row other : Members}
    (h : rowNode.Rearranges (.object row) (.object other)) :
    rowsNode.Rearranges (rowsRecord row) (rowsRecord other) := by
  let first : Json := .object [("k", .number (.unsigned 0)), ("xs", .array [])]
  have hrows : (array rowNode (.field "n")).Rearranges (.array ([first] ++ .object row :: []))
      (.array ([first] ++ .object other :: [])) := .item h
  change rowsNode.Rearranges
    (.object ([("n", .number (.unsigned 2))] ++ ("rows", .array [first, .object row]) :: []))
    (.object ([("n", .number (.unsigned 2))] ++ ("rows", .array [first, .object other]) :: []))
  exact .field (List.mem_cons_of_mem _ List.mem_cons_self) hrows

/-- The count of a row behind its numbers, with another count between, is encoded to the same
bytes. -/
theorem encode_of_rearranged_rows :
    rowsNode.encode (rowsRecord countedMembers) 0 .big
        = rowsNode.encode (rowsRecord mixedMembers) 0 .big
      ∧ (rowsNode.encode (rowsRecord mixedMembers) 0 .big).1.toOption.map Encoded.bytes
        = some [2, 0, 2, 7, 8] := by
  have hpermute : rowNode.Rearranges (.object countedMembers)
      (.object [("xs", .array [.number (.unsigned 7), .number (.unsigned 8)]),
        ("k", .number (.unsigned 2))]) := .permute (by decide) (.swap _ _ _)
  have hadd : rowNode.Rearranges
      (.object ([("xs", .array [.number (.unsigned 7), .number (.unsigned 8)])]
        ++ [("k", .number (.unsigned 2))])) (.object mixedMembers) := .add (by decide)
  have hsteps : Relation.ReflTransGen rowsNode.Rearranges (rowsRecord countedMembers)
      (rowsRecord mixedMembers) :=
    .tail (.single (rearranges_rowsRecord hpermute)) (rearranges_rowsRecord hadd)
  have compiled : compile rowsDescription = .ok rowsNode := rfl
  exact ⟨(encode_of_rearranged distinctKeys_rowsDescription compiled hsteps).1 0 .big,
    by decide +kernel⟩

end Node

end ByteRecord
