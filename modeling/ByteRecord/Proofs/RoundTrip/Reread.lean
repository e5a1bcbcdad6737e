import ByteRecord.Json.Parser
import ByteRecord.Json.Shortest
import ByteRecord.Proofs.Encode.Faults
import ByteRecord.Proofs.Json.Rereading
import ByteRecord.Proofs.RoundTrip.Alike

/-!
# Encoding a record that went through text

A decoded record that is written as text and read again is alike to itself if all its numbers are
finite, so it is encoded into the same bytes. A number that is not finite comes back as null. The
encoder writes what stands before the first of these and then finds the record at fault, even where
an array length reads it: the field itself is written before.
-/

namespace ByteRecord

namespace Json

/-- A value without infinities and NaNs is alike after its text is read again. -/
theorem Finite.reread_alike {value : Json} (h : value.Finite) : value.reread.Alike value := by
  induction value with
  | null => exact .null
  | bool value => exact .bool
  | number n =>
    cases h with
    | number finite =>
      rw [reread_number_of_finite finite]
      exact .number n.reread_alike
  | string s => exact .string
  | array items ih =>
    cases h with
    | array below =>
      rw [reread, rereadItems_eq_map]
      refine .array (List.length_map _) ?_
      rw [← List.map_prod_right_eq_zip]
      intro pair hpair
      obtain ⟨item, hitem, rfl⟩ := List.mem_map.mp hpair
      exact ih item hitem (below item hitem)
  | object members ih =>
    cases h with
    | object below =>
      rw [reread, rereadMembers_eq_map]
      refine .object (by simp) ?_
      rw [← List.map_prod_right_eq_zip]
      intro pair hpair
      obtain ⟨member, hmember, rfl⟩ := List.mem_map.mp hpair
      exact ih member hmember (below member hmember)

end Json

/-- A field that is finite, or that is missing, is looked up as before. -/
theorem Scope.number_rereadMembers {members : Members} {name : String}
    (finite : ∀ value, members.find? name = some value → value.Finite) :
    Scope.number (some (Json.rereadMembers members)) name = Scope.number (some members) name := by
  simp only [number, Members.find?_rereadMembers]
  cases hfind : members.find? name with
  | none => rfl
  | some value =>
    cases finite value hfind with
    | number hfinite =>
      rename_i n
      rw [Option.map_some, Json.reread_number_of_finite hfinite]
      exact congrArg Except.ok n.reread_alike.toBinary64_eq
    | _ => rfl

namespace Plan

/-- The plan writes the front of what the other one writes, and then the record is at fault. -/
structure BreaksOff (short whole : Plan) : Prop where
  /-- The record is at fault. -/
  fault : ∃ path cause, short.fault = some (.record path cause)
  /-- What is written before is written in the other plan too. -/
  writes : ∃ rest, whole.writes = short.writes ++ rest

variable {short whole first second after : Plan}

theorem breaksOff_failing (path : Path) (cause : RecordError) (whole : Plan) :
    (failing (.record path cause)).BreaksOff whole :=
  ⟨⟨path, cause, rfl⟩, whole.writes, rfl⟩

/-- A plan that breaks off does so whatever follows. -/
theorem BreaksOff.append (h : short.BreaksOff whole) (hwhole : whole.fault = none) :
    (short ++ second).BreaksOff (whole ++ after) := by
  obtain ⟨⟨path, cause, hfault⟩, rest, hrest⟩ := h
  rw [append_of_fault hfault, append_of_fault_eq_none hwhole]
  exact ⟨⟨path, cause, rfl⟩, rest ++ after.writes, by rw [hrest, List.append_assoc]⟩

/-- A plan that breaks off does so behind another one. -/
theorem BreaksOff.append_left (hfirst : first.fault = none) (h : short.BreaksOff whole) :
    (first ++ short).BreaksOff (first ++ whole) := by
  obtain ⟨⟨path, cause, hfault⟩, rest, hrest⟩ := h
  rw [append_of_fault_eq_none hfirst, append_of_fault_eq_none hfirst]
  exact ⟨⟨path, cause, hfault⟩, rest, by rw [hrest, List.append_assoc]⟩

/-- A plan that breaks off writes no more bytes than the other one. -/
theorem BreaksOff.length_octets_le (h : short.BreaksOff whole) :
    short.octets.length ≤ whole.octets.length := by
  obtain ⟨rest, hrest⟩ := h.writes
  have hoctets : whole.octets = short.octets ++ rest.flatMap Write.octets := by
    rw [octets, hrest, List.flatMap_append, octets]
  rw [hoctets, List.length_append]
  omega

/-- Items break off at the first one that is not finite. -/
theorem breaksOff_forItems {plan other : Path → Json → Plan} {path : Path} {index : Nat}
    {items : List Json} (infinite : ∃ item ∈ items, ¬ item.Finite)
    (whole : ∀ item ∈ items, ∀ path, (other path item).fault = none)
    (same : ∀ item ∈ items, item.Finite → ∀ path, plan path item.reread = other path item)
    (broken : ∀ item ∈ items, ¬ item.Finite → ∀ path,
      (plan path item.reread).BreaksOff (other path item)) :
    (forItems plan path index (Json.rereadItems items)).BreaksOff
      (forItems other path index items) := by
  induction items generalizing index with
  | nil =>
    obtain ⟨item, hitem, -⟩ := infinite
    cases hitem
  | cons item rest ih =>
    obtain ⟨hwhole, hwholes⟩ := List.forall_mem_cons.mp whole
    obtain ⟨hsame, hsames⟩ := List.forall_mem_cons.mp same
    obtain ⟨hbroken, hbrokens⟩ := List.forall_mem_cons.mp broken
    rw [Json.rereadItems, forItems, forItems]
    by_cases hfinite : item.Finite
    · have hrest : ∃ later ∈ rest, ¬ later.Finite :=
        ((List.exists_mem_cons_iff _ _ _).mp infinite).resolve_left (not_not_intro hfinite)
      rw [hsame hfinite]
      exact .append_left (hwhole _) (ih hrest hwholes hsames hbrokens)
    · exact (hbroken hfinite _).append (hwhole _)

end Plan

namespace Node

/-- Behind finite members, the lengths of a field see the numbers that they saw before. -/
theorem agrees_rereadMembers {done added : Members}
    (distinct : ((done ++ added).map Prod.fst).Nodup) (finite : ∀ member ∈ done, member.2.Finite) :
    Agrees (some (done.map Prod.fst)) (some (Json.rereadMembers (done ++ added)))
      (some (done ++ added)) := by
  intro name hname
  simp only [Declared.has, Option.any_some, List.contains_iff_mem] at hname
  obtain ⟨member, hmember, rfl⟩ := List.mem_map.mp hname
  refine Scope.number_rereadMembers fun value hvalue => ?_
  rw [Members.find?_of_mem distinct (List.mem_append_left _ hmember)] at hvalue
  exact Option.some.inj hvalue ▸ finite member hmember

/-- Fields break off at the first one that is not finite. Those before it are finite, so its own
lengths do not see that it is lost. -/
theorem breaksOff_planFields (path : Path) {fields : List (String × Node)} {done added : Members}
    (names : added.map Prod.fst = fields.map Prod.fst)
    (distinct : ((done ++ added).map Prod.fst).Nodup)
    (reads : FieldsScopedIn (done.map Prod.fst) fields)
    (finite : ∀ member ∈ done, member.2.Finite) (infinite : ∃ member ∈ added, ¬ member.2.Finite)
    (whole : ∀ pair ∈ fields.zip added, ∀ path,
      (pair.1.2.plan (some (done ++ added)) path pair.2.2).fault = none)
    (broken : ∀ pair ∈ fields.zip added, ¬ pair.2.2.Finite → ∀ declared part path,
      pair.1.2.ScopedIn declared → Agrees declared part (some (done ++ added)) →
        (pair.1.2.plan part path pair.2.2.reread).BreaksOff
          (pair.1.2.plan (some (done ++ added)) path pair.2.2)) :
    (planFields (Json.rereadMembers (done ++ added)) path fields).BreaksOff
      (planFields (done ++ added) path fields) := by
  induction fields generalizing done added with
  | nil =>
    obtain ⟨member, hmember, -⟩ := infinite
    rw [List.map_nil, List.map_eq_nil_iff] at names
    rw [names] at hmember
    cases hmember
  | cons field fields ih =>
    obtain ⟨name, node⟩ := field
    cases added with
    | nil => cases names
    | cons member added =>
      obtain ⟨key, value⟩ := member
      injection names with hname hnames
      subst hname
      rw [List.zip_cons_cons] at whole broken
      obtain ⟨hwhole, hwholes⟩ := List.forall_mem_cons.mp whole
      obtain ⟨hbroken, hbrokens⟩ := List.forall_mem_cons.mp broken
      have hagrees := agrees_rereadMembers distinct finite
      have hfind := Members.find?_of_nodup distinct
      have hread := Members.find?_rereadMembers (done ++ (key, value) :: added) key
      rw [hfind, Option.map_some] at hread
      rw [planFields, planFields, hfind, hread]
      dsimp only
      by_cases hfinite : value.Finite
      · have hrest : ∃ member ∈ added, ¬ member.2.Finite :=
          ((List.exists_mem_cons_iff _ _ _).mp infinite).resolve_left (not_not_intro hfinite)
        have hdone : ∀ member ∈ done ++ [(key, value)], member.2.Finite := by
          intro member hmember
          rcases List.mem_append.mp hmember with hmem | hmem
          · exact finite member hmem
          · rw [List.mem_singleton.mp hmem]
            exact hfinite
        have hsplit : done ++ (key, value) :: added = (done ++ [(key, value)]) ++ added := by
          rw [List.append_assoc, List.singleton_append]
        have hreads : FieldsScopedIn ((done ++ [(key, value)]).map Prod.fst) fields := by
          rw [List.map_append]
          exact reads.2
        rw [plan_of_alike reads.1 hagrees hfinite.reread_alike]
        refine Plan.BreaksOff.append_left (hwhole _) ?_
        rw [hsplit] at distinct hwholes hbrokens ⊢
        exact ih hnames distinct hreads hdone hrest hwholes hbrokens
      · exact (hbroken hfinite _ _ _ reads.1 hagrees).append (hwhole _)

/-- The plan for a conforming record that is not finite breaks off after its text is read again. -/
theorem Conforms.breaksOff_reread {node : Node} (branchFree : node.BranchFree)
    (distinct : node.DistinctNames) {declared : Declared} {part full : Scope} {path : Path}
    {value : Json} (reads : node.ScopedIn declared) (agrees : Agrees declared part full)
    (h : node.Conforms full value) (infinite : ¬ value.Finite) :
    (node.plan part path value.reread).BreaksOff (node.plan full path value) := by
  induction node generalizing declared part full path value with
  | leaf tag =>
    cases h with
    | leaf holds =>
      cases holds with
      | scalar range demand =>
        rw [Json.reread_number_of_not_finite infinite, plan]
        exact Plan.breaksOff_failing _ _ _
      | string chars length demand => exact absurd .string infinite
      | cstring chars free length demand => exact absurd .string infinite
  | array element length ih =>
    obtain ⟨hfields, helement⟩ := reads
    cases h with
    | array size each =>
      rename_i items
      have hlost := Json.exists_item_of_not_finite infinite
      have hmismatch : length.mismatch? full path items.length = none := by
        unfold Length.mismatch?
        rcases size with hsize | hsize <;> simp [hsize]
      have hlength : (Json.rereadItems items).length = items.length := by simp
      rw [Json.reread, plan, plan]
      simp only [hlength, length.mismatch?_congr hfields agrees, hmismatch]
      refine Plan.breaksOff_forItems hlost ?_ ?_ ?_
      · intro item hitem path
        exact (each item hitem).fault_plan branchFree.element distinct.element
      · intro item hitem hfinite path
        exact plan_of_alike helement agrees hfinite.reread_alike
      · intro item hitem hinfinite path
        exact ih branchFree.element distinct.element helement agrees (each item hitem) hinfinite
  | branch alternatives ih => exact absurd branchFree BranchFree.not_branch
  | struct fields ih =>
    cases h with
    | struct names values =>
      rename_i members
      have hmembers : (([] ++ members).map Prod.fst).Nodup := by
        rw [List.nil_append, names]
        exact distinct.here
      have hlost := Json.exists_member_of_not_finite infinite
      have hwhole : ∀ pair ∈ fields.zip members, ∀ path,
          (pair.1.2.plan (some members) path pair.2.2).fault = none := by
        intro pair hpair path
        have hmem := (List.of_mem_zip hpair).1
        exact (values pair hpair).fault_plan (branchFree.field hmem) (distinct.field hmem)
      have hplan := breaksOff_planFields path names hmembers reads (List.forall_mem_nil _) hlost
        hwhole
      rw [Json.reread, plan, plan]
      refine hplan fun pair hpair hinfinite declared part path hreads hagrees => ?_
      have hmem := (List.of_mem_zip hpair).1
      exact ih pair.1 hmem (branchFree.field hmem) (distinct.field hmem) hreads hagrees
        (values pair hpair) hinfinite

variable {description : Json} {node : Node} {bytes : List UInt8} {options : DecodeOptions}
  {record : Json} {stop n : Nat}

/-- What is written for a decoded record keeps within the bytes that were there to decode. -/
theorem length_octets_le_of_matches {path : Path} {r next : Reader} (typed : node.Typed)
    (distinct : node.DistinctNames) (branchFree : node.BranchFree)
    (h : (node.decode none r).Matches record next) :
    (node.plan none path record).octets.length ≤ r.remaining := by
  have hconforms : node.Conforms none record :=
    conforms_of_matches typed (Scope.Extends.refl _) h
  have hcovers : (node.plan none path record).Covers (node.slots record) :=
    covers_plan (hconforms.fault_plan branchFree distinct)
  obtain ⟨region, hpass, hspelled⟩ := spelled_of_matches branchFree distinct h
  rw [hcovers.octets_eq, length_octets_slots hcovers.writable, ← hspelled.length_eq]
  exact hpass.length_le

/-- A decoded record without infinities and NaNs is encoded into the same bytes after its text is
read again; with one of them the record is found at fault. Of the reader only this is used: it gives
the record back with integers unsigned that are not negative, and null for what is not finite. What
is written finds room up to two to the 63 bytes, which no buffer to decode exceeds. -/
theorem encode_reread [RealPrinter] {parse : String → Except Json.ReadError Json}
    (distinct : description.DistinctKeys) (compiled : compile description = .ok node)
    (branchFree : node.BranchFree)
    (decoded : (node.decodeRecord options bytes).1 = .ok ⟨some record, stop, n⟩) {text : String}
    (dumped : text ∈ [record.compact, record.indented])
    (library : ∀ text ∈ [record.compact, record.indented], parse text = .ok record.reread)
    (capacity : Nat) (order : Endian) :
    ∃ read, parse text = .ok read
      ∧ (record.Finite →
        (node.encode read capacity order).1 = (node.encode record capacity order).1)
      ∧ (bytes.length ≤ signedBound →
        (record.Finite → ∃ encoded, (node.encode read capacity order).1 = .ok encoded)
        ∧ (¬ record.Finite → ∃ path cause,
          (node.encode read capacity order).1 = .error (.record path cause))) := by
  have typed := typed_of_compile compiled
  have names := distinctNames_of_compile distinct compiled
  have reads := scopedIn_of_compile compiled
  obtain ⟨-, next, hmatch, -⟩ := decodeRecord_eq_ok_some_iff.mp decoded
  have hconforms : node.Conforms none record :=
    conforms_of_matches typed (Scope.Extends.refl _) hmatch
  have hfault : (node.plan none .root record).fault = none :=
    hconforms.fault_plan branchFree names
  have hagrees : Agrees none none none := fun _ _ => rfl
  have hsame : record.Finite →
      (node.encode record.reread capacity order).1 = (node.encode record capacity order).1 := by
    intro finite
    have hplan : node.plan none .root record.reread = node.plan none .root record :=
      plan_of_alike reads hagrees finite.reread_alike
    rw [encode_congr hplan]
  refine ⟨record.reread, library text dumped, hsame, fun addressable => ?_⟩
  have hremaining : ((Reader.ofBytes bytes).advance options.offset).remaining
      = bytes.length - options.offset := Reader.remaining_advance _ _
  have hsize : (node.plan none .root record).octets.length ≤ signedBound := by
    have hle : (node.plan none .root record).octets.length ≤ _ :=
      length_octets_le_of_matches typed names branchFree hmatch
    omega
  refine ⟨fun finite => ?_, fun infinite => ?_⟩
  · rw [hsame finite]
    exact ⟨_, encode_eq_ok hfault hsize capacity order⟩
  · have hbroken : (node.plan none .root record.reread).BreaksOff (node.plan none .root record) :=
      hconforms.breaksOff_reread branchFree names reads hagrees infinite
    obtain ⟨path, cause, hcause⟩ := hbroken.fault
    have hshort := hbroken.length_octets_le.trans hsize
    exact ⟨path, cause, encode_eq_error hcause hshort capacity order⟩

/-- Describes as many measures as a signed number says. -/
def measuresDescription : Json :=
  .object [("n", .string "int8"), ("xs", .array [.string "float32", .string "n"])]

theorem distinctKeys_measuresDescription : measuresDescription.DistinctKeys := by
  refine .object (by decide) ?_
  simp only [List.forall_mem_cons]
  refine ⟨.string, .array ?_, List.forall_mem_nil _⟩
  simp only [List.forall_mem_cons]
  exact ⟨.string, .string, List.forall_mem_nil _⟩

/-- The schema of that description. -/
def measuresNode : Node :=
  struct [("n", leaf (.scalar ⟨.int8, .big, 0, none⟩)),
    ("xs", array (leaf (.scalar ⟨.float32, .big, 0, none⟩)) (.field "n"))]

theorem compile_measuresDescription : compile measuresDescription = .ok measuresNode := rfl

theorem branchFree_measuresNode : measuresNode.BranchFree := by
  refine .struct trivial ?_
  simp only [List.forall_mem_cons]
  exact ⟨.leaf trivial, .array trivial (.leaf trivial), List.forall_mem_nil _⟩

/-- A record of that schema with a single measure. -/
def measuresRecord (x : Binary64) : Json :=
  .object [("n", .number (.signed 1)), ("xs", .array [.number (.real x)])]

theorem finite_measuresRecord_iff {x : Binary64} :
    (measuresRecord x).Finite ↔ x.isFinite = true := by
  constructor
  · intro h
    cases h with
    | object below =>
      cases below ("xs", _) (List.mem_cons_of_mem _ List.mem_cons_self) with
      | array below =>
        cases below _ List.mem_cons_self with
        | number finite => exact finite
  · intro finite
    refine .object ?_
    simp only [List.forall_mem_cons]
    exact ⟨.number rfl, .array (List.forall_mem_singleton.mpr (.number finite)),
      List.forall_mem_nil _⟩

/-- The record with one and a half. -/
def finiteRecord : Json := measuresRecord ⟨0x3FF8000000000000⟩

/-- The record with an infinity. -/
def infiniteRecord : Json := measuresRecord ⟨0x7FF0000000000000⟩

/-- One and a half goes through text, and an infinity does not. -/
theorem encode_reread_measures :
    (∃ read encoded, Json.parse (@Json.compact .shortest finiteRecord) = .ok read
        ∧ (measuresNode.encode read 0 .big).1 = .ok encoded)
      ∧ ∃ read path cause, Json.parse (@Json.indented .shortest infiniteRecord) = .ok read
        ∧ (measuresNode.encode read 0 .big).1 = .error (.record path cause) := by
  have finite : finiteRecord.Finite := finite_measuresRecord_iff.mpr (by decide)
  have infinite : ¬ infiniteRecord.Finite := fun h => absurd (finite_measuresRecord_iff.mp h)
    (by decide)
  -- Reading the texts of the two records back is evaluated.
  have library : ∀ text ∈ [@Json.compact .shortest finiteRecord,
      @Json.indented .shortest finiteRecord],
      Json.parse text = .ok finiteRecord.reread := by
    simp only [List.forall_mem_cons]
    exact ⟨eq_ok_of_toOption (by decide +kernel), eq_ok_of_toOption (by decide +kernel),
      List.forall_mem_nil _⟩
  have library' : ∀ text ∈ [@Json.compact .shortest infiniteRecord,
      @Json.indented .shortest infiniteRecord],
      Json.parse text = .ok infiniteRecord.reread := by
    simp only [List.forall_mem_cons]
    exact ⟨eq_ok_of_toOption (by decide +kernel), eq_ok_of_toOption (by decide +kernel),
      List.forall_mem_nil _⟩
  have decoded : (measuresNode.decodeRecord ⟨0, false, ""⟩ [1, 0x3F, 0xC0, 0, 0]).1
      = .ok ⟨some finiteRecord, 5, 5⟩ := eq_ok_of_toOption (by decide +kernel)
  have decoded' : (measuresNode.decodeRecord ⟨0, false, ""⟩ [1, 0x7F, 0x80, 0, 0]).1
      = .ok ⟨some infiniteRecord, 5, 5⟩ := eq_ok_of_toOption (by decide +kernel)
  refine ⟨?_, ?_⟩
  · obtain ⟨read, hread, -, hroom⟩ := @encode_reread _ _ _ _ _ _ _ .shortest Json.parse
      distinctKeys_measuresDescription compile_measuresDescription branchFree_measuresNode decoded
      _ List.mem_cons_self library 0 .big
    obtain ⟨encoded, hencoded⟩ := (hroom (by decide)).1 finite
    exact ⟨read, encoded, hread, hencoded⟩
  · obtain ⟨read, hread, -, hroom⟩ := @encode_reread _ _ _ _ _ _ _ .shortest Json.parse
      distinctKeys_measuresDescription compile_measuresDescription branchFree_measuresNode decoded'
      _ (List.mem_cons_of_mem _ List.mem_cons_self) library' 0 .big
    obtain ⟨path, cause, hencoded⟩ := (hroom (by decide)).2 infinite
    exact ⟨read, path, cause, hread, hencoded⟩

end Node

end ByteRecord
