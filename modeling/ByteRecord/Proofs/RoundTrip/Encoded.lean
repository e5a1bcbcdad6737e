import ByteRecord.Proofs.Encode.Conforming
import ByteRecord.Proofs.RoundTrip.InStep

/-!
# Decoding an encoded record

A record that conforms to its schema is encoded, and decoding finds it again in front of any further
bytes. The record that is found may keep an integer with another signedness than it was given with;
`Json.Alike` says that two values differ in nothing else. Conforming to a schema does not depend on
that difference, so the record that the bytes keep conforms as well.
-/

namespace ByteRecord

/-- The values are the same up to the signedness with which integers are kept. -/
inductive Json.Alike : Json → Json → Prop
  | null : Alike .null .null
  | bool {value : Bool} : Alike (.bool value) (.bool value)
  | number {m n : Number} (alike : m.Alike n) : Alike (.number m) (.number n)
  | string {s : String} : Alike (.string s) (.string s)
  | array {xs ys : List Json} (length : xs.length = ys.length)
      (each : ∀ pair ∈ xs.zip ys, Alike pair.1 pair.2) : Alike (.array xs) (.array ys)
  | object {xs ys : Members} (names : xs.map Prod.fst = ys.map Prod.fst)
      (each : ∀ pair ∈ xs.zip ys, Alike pair.1.2 pair.2.2) : Alike (.object xs) (.object ys)

/-- Alike numbers stand in the same slots. -/
theorem ScalarType.Holds.of_alike {type : ScalarType} {m n : Number} (alike : m.Alike n)
    (h : type.Holds n) : type.Holds m := by
  rcases alike with rfl | ⟨i, hm, hn⟩
  · exact h
  · have hinteger : (∃ j, n.integer? = some j ∧ type.least ≤ j ∧ j < type.bound) →
        ∃ j, m.integer? = some j ∧ type.least ≤ j ∧ j < type.bound := by
      rintro ⟨j, hj, hrange⟩
      rw [hn] at hj
      injection hj with hj
      exact ⟨i, hm, hj ▸ hrange⟩
    cases type
    case float32 =>
      obtain ⟨x, rfl⟩ := h
      cases hn
    case float64 =>
      obtain ⟨x, rfl⟩ := h
      cases hn
    all_goals exact hinteger h

/-- Alike numbers have the same exact value. -/
theorem Number.Alike.exactValue?_eq {m n : Number} (h : m.Alike n) :
    m.exactValue? = n.exactValue? := by
  rcases h with rfl | ⟨i, hm, hn⟩
  · rfl
  · rw [Number.exactValue?_of_integer hm, Number.exactValue?_of_integer hn]

/-- Alike numbers equal the same references. -/
theorem ScalarRef.equal_of_alike (ref : ScalarRef) {m n : Number} (alike : m.Alike n) :
    ref.Equal m = ref.Equal n := by
  rw [Equal, Equal, alike.exactValue?_eq]

/-- Alike values stand in the same slots. -/
theorem Tag.Holds.of_alike {tag : Tag} {left value : Json} (alike : left.Alike value)
    (h : tag.Holds value) : tag.Holds left := by
  cases h with
  | scalar range demand =>
    cases alike with
    | number alike =>
      refine .scalar (range.of_alike alike) ?_
      intro reference hreference
      rw [reference.value.equal_of_alike alike]
      exact demand reference hreference
  | string chars length demand =>
    cases alike with
    | string => exact .string chars length demand
  | cstring chars free length demand =>
    cases alike with
    | string => exact .cstring chars free length demand

/-- What a slot keeps of a value that may stand in it is alike, unless it is a NaN. -/
theorem Tag.Holds.kept_alike {tag : Tag} {value : Json} (h : tag.Holds value)
    (hnan : Slot.isNaN ⟨tag, value⟩ = false) : (Slot.kept ⟨tag, value⟩).Alike value := by
  cases h with
  | scalar range demand =>
    rename_i tag n
    obtain ⟨scalar, hscalar, halike⟩ := ScalarType.ofWord_toWord range hnan
    have hwidth : (tag.type.toOctets tag.order scalar).length = tag.type.size :=
      Endian.length_octets ..
    rw [Slot.kept, Slot.octets_scalar hscalar]
    dsimp only [Tag.spelled]
    rw [List.take_left' hwidth, ScalarType.ofOctets_toOctets hscalar]
    exact .number halike
  | string chars length demand =>
    obtain ⟨text, rfl⟩ := chars.exists_bytes
    rw [length_fieldText] at length
    rw [Slot.kept, Slot.octets_string, ← length, Write.octets_fixedText_self]
    exact .string
  | cstring chars free length demand =>
    rename_i tag s
    obtain ⟨text, rfl⟩ := chars.exists_bytes
    rw [nul_mem_fieldText] at free
    rw [length_fieldText] at length
    have hkept : Reader.untilZero (Write.terminatedText text tag.paddedTo.toNat).octets = text := by
      by_cases hwidth : tag.paddedTo = 0
      · rw [hwidth, UInt64.toNat_zero, Slot.untilZero_octets_terminatedText,
          Reader.untilZero_eq_self free]
      · have hne := TextTag.toNat_paddedTo_ne_zero hwidth
        rw [Write.terminatedText, if_neg hne, Write.octets_fixedText (length hwidth)]
        cases tag.paddedTo.toNat - text.length with
        | zero => rw [List.replicate_zero, List.append_nil, Reader.untilZero_eq_self free]
        | succ count => rw [List.replicate_succ, Reader.untilZero_append_zero free]
    rw [Slot.kept, Slot.octets_cstring]
    dsimp only [Tag.spelled]
    rw [hkept]
    exact .string

/-- A text that may stand in its slot holds no zero byte. -/
theorem Tag.Holds.ends {slot : Slot} (h : slot.tag.Holds slot.value) : slot.Ends := by
  obtain ⟨tag, value⟩ := slot
  cases h with
  | scalar range demand => trivial
  | string chars length demand => trivial
  | cstring chars free length demand => exact fun _ => free

/-- A partner in the one list has a partner in another one that is as long. -/
theorem exists_mem_zip_zip {α β γ : Type} {as : List α} {bs : List β} {cs : List γ}
    (h : bs.length = cs.length) :
    ∀ pair ∈ as.zip bs, ∃ c, (pair.1, c) ∈ as.zip cs ∧ (pair.2, c) ∈ bs.zip cs := by
  induction as generalizing bs cs with
  | nil => exact List.forall_mem_nil _
  | cons a as ih =>
    cases bs with
    | nil => exact List.forall_mem_nil _
    | cons b bs =>
      cases cs with
      | nil => cases h
      | cons c cs =>
        rw [List.zip_cons_cons]
        refine List.forall_mem_cons.mpr ⟨⟨c, List.mem_cons_self, List.mem_cons_self⟩, ?_⟩
        intro pair hpair
        obtain ⟨partner, hleft, hright⟩ := ih (Nat.succ.inj h) pair hpair
        exact ⟨partner, List.mem_cons_of_mem _ hleft, List.mem_cons_of_mem _ hright⟩

/-- In lists with the same names, partners have the same name. -/
theorem Members.name_eq_of_mem_zip {fields : List (String × Node)} {members : Members}
    (names : members.map Prod.fst = fields.map Prod.fst) :
    ∀ pair ∈ fields.zip members, pair.2.1 = pair.1.1 := by
  induction fields generalizing members with
  | nil => exact List.forall_mem_nil _
  | cons field fields ih =>
    cases members with
    | nil => exact List.forall_mem_nil _
    | cons member members =>
      rw [List.map_cons, List.map_cons] at names
      injection names with hname hnames
      rw [List.zip_cons_cons]
      exact List.forall_mem_cons.mpr ⟨hname, ih hnames⟩

/-- Alike members give the same numbers. -/
theorem Scope.extends_of_alike {left members : Members}
    (names : left.map Prod.fst = members.map Prod.fst)
    (each : ∀ pair ∈ left.zip members, pair.1.2.Alike pair.2.2) :
    Scope.Extends (some left) (some members) := by
  intro name x h
  rw [number_some_eq_ok_iff] at h ⊢
  induction left generalizing members with
  | nil =>
    rw [List.map_nil, eq_comm, List.map_eq_nil_iff] at names
    rw [names] at h
    obtain ⟨n, hn, -⟩ := h
    cases hn
  | cons member left ih =>
    cases members with
    | nil => cases names
    | cons other members =>
      obtain ⟨key, value⟩ := member
      obtain ⟨key', value'⟩ := other
      rw [List.map_cons, List.map_cons] at names
      injection names with hkey hnames
      dsimp only at hkey
      subst hkey
      rw [List.zip_cons_cons] at each
      obtain ⟨halike, heach⟩ := List.forall_mem_cons.mp each
      by_cases hname : name = key
      · subst hname
        rw [Members.find?_cons_self] at h ⊢
        obtain ⟨n, hn, hx⟩ := h
        injection hn with hn
        dsimp only at halike
        rw [hn] at halike
        cases halike with
        | number alike => exact ⟨_, rfl, alike.toBinary64_eq.trans hx⟩
      · rw [Members.find?_cons_of_ne hname] at h ⊢
        exact ih hnames heach h

namespace Node

/-- A record that is alike to a conforming one conforms. -/
theorem Conforms.of_alike {node : Node} {leftScope scope : Scope} {left value : Json}
    (grown : leftScope.Extends scope) (alike : left.Alike value) (h : node.Conforms scope value) :
    node.Conforms leftScope left := by
  induction node generalizing leftScope scope left value with
  | leaf tag =>
    cases h with
    | leaf holds => exact .leaf (holds.of_alike alike)
  | array element length ih =>
    cases h with
    | array size each =>
      rename_i items
      cases alike with
      | array hlength heach =>
        rename_i xs
        refine .array ?_ ?_
        · rw [hlength]
          exact size.imp (Length.evaluate_of_extends grown) (Length.evaluate_of_extends grown)
        · intro x hx
          obtain ⟨i, hi, rfl⟩ := List.mem_iff_getElem.mp hx
          have hitem : i < items.length := hlength ▸ hi
          have hzip : i < (xs.zip items).length := by
            rw [List.length_zip, ← hlength, Nat.min_self]
            exact hi
          have hmem : (xs[i], items[i]) ∈ xs.zip items := by
            have hpair := List.getElem_mem hzip
            rwa [List.getElem_zip] at hpair
          have hconforms := each _ (List.of_mem_zip hmem).2
          exact ih grown (heach _ hmem) hconforms
  | branch alternatives ih =>
    cases h with
    | branch mem holds => exact .branch mem (ih _ mem grown alike holds)
  | struct fields ih =>
    cases h with
    | struct names values =>
      rename_i members
      cases alike with
      | object hnames heach =>
        rename_i xs
        refine .struct (hnames.trans names) ?_
        intro pair hpair
        have hlength : xs.length = members.length := by
          rw [← List.length_map Prod.fst, hnames, List.length_map]
        obtain ⟨partner, hfield, hvalue⟩ := exists_mem_zip_zip hlength pair hpair
        have hmem := (List.of_mem_zip hpair).1
        have hgrown := Scope.extends_of_alike hnames heach
        exact ih pair.1 hmem hgrown (heach _ hvalue) (values _ hfield)

/-- What is left of the fields is alike if what is left of each value is. -/
theorem keptFields_alike {members added : Members} {fields : List (String × Node)}
    (names : added.map Prod.fst = fields.map Prod.fst)
    (each : ∀ pair ∈ fields.zip added, members.find? pair.1.1 = some pair.2.2
      ∧ (pair.1.2.kept pair.2.2).Alike pair.2.2) :
    ∀ pair ∈ (keptFields members fields).zip added, pair.1.2.Alike pair.2.2 := by
  induction fields generalizing added with
  | nil => exact List.forall_mem_nil _
  | cons field fields ih =>
    obtain ⟨name, node⟩ := field
    cases added with
    | nil => cases names
    | cons member added =>
      rw [List.map_cons, List.map_cons] at names
      injection names with hname hnames
      rw [List.zip_cons_cons] at each
      obtain ⟨⟨hfind, halike⟩, heach⟩ := List.forall_mem_cons.mp each
      rw [keptFields, hfind, List.zip_cons_cons]
      exact List.forall_mem_cons.mpr ⟨halike, ih hnames heach⟩

/-- What is left of a conforming record is alike, unless it holds a NaN. -/
theorem Conforms.kept_alike {node : Node} (branchFree : node.BranchFree)
    (distinct : node.DistinctNames) {scope : Scope} {value : Json} (h : node.Conforms scope value)
    (numbers : ∀ slot ∈ node.slots value, slot.isNaN = false) :
    (node.kept value).Alike value := by
  induction node generalizing scope value with
  | leaf tag =>
    cases h with
    | leaf holds => exact holds.kept_alike (numbers _ List.mem_cons_self)
  | array element length ih =>
    cases h with
    | array size each =>
      rw [Node.kept]
      refine .array (List.length_map _) ?_
      rw [← List.map_prod_right_eq_zip]
      intro pair hpair
      obtain ⟨item, hitem, rfl⟩ := List.mem_map.mp hpair
      refine ih branchFree.element distinct.element (each item hitem) fun slot hslot => ?_
      exact numbers slot (List.mem_flatMap.mpr ⟨item, hitem, hslot⟩)
  | branch alternatives ih => exact absurd branchFree BranchFree.not_branch
  | struct fields ih =>
    cases h with
    | struct names values =>
      rename_i members
      have hpairs : ∀ pair ∈ fields.zip members, Members.find? members pair.1.1 = some pair.2.2
          ∧ (pair.1.2.kept pair.2.2).Alike pair.2.2 := by
        intro pair hpair
        have hmem := List.of_mem_zip hpair
        have hfind : Members.find? members pair.1.1 = some pair.2.2 := by
          rw [← Members.name_eq_of_mem_zip names pair hpair]
          exact Members.find?_of_mem (names ▸ distinct.here) hmem.2
        refine ⟨hfind, ih pair.1 hmem.1 (branchFree.field hmem.1) (distinct.field hmem.1)
          (values pair hpair) fun slot hslot => ?_⟩
        exact numbers slot (mem_fieldSlots_of_mem hmem.1 hfind hslot)
      have hfound : ∀ field ∈ fields, ∃ value, Members.find? members field.1 = some value := by
        intro field hfield
        obtain ⟨value, hpair⟩ := Members.exists_mem_zip names field hfield
        exact ⟨value, (hpairs _ hpair).1⟩
      rw [Node.kept]
      have hnames := (names_keptFields hfound).trans names.symm
      exact .object hnames (keptFields_alike names hpairs)

variable {description : Json} {node : Node} {record : Json}

/-- A record that conforms to its schema is encoded, and decoding the bytes gives a record that is
alike, whatever follows them. -/
theorem decode_encoded (distinct : description.DistinctKeys)
    (compiled : compile description = .ok node) (branchFree : node.BranchFree)
    (countsKnown : node.CountsKnown) (conforms : node.Conforms none record)
    (numbers : ∀ slot ∈ node.slots record, slot.isNaN = false)
    (small : slotsSize (node.slots record) < 2 ^ 53) (capacity : Nat) (order : Endian) :
    ∃ encoded, (node.encode record capacity order).1 = .ok encoded
      ∧ encoded.written = encoded.bytes.length
      ∧ ∀ suffix label, ∃ decoded,
          (node.decodeRecord ⟨0, false, label⟩ (encoded.bytes ++ suffix)).1
            = .ok ⟨some decoded, encoded.bytes.length, encoded.bytes.length⟩
          ∧ decoded.Alike record := by
  have typed := typed_of_compile compiled
  have names := distinctNames_of_compile distinct compiled
  have reads := scopedIn_of_compile compiled
  have hfault : (node.plan none .root record).fault = none := conforms.fault_plan branchFree names
  have hcovers := covers_plan hfault
  have hsize : (node.plan none .root record).octets.length ≤ signedBound := by
    rw [hcovers.octets_eq, length_octets_slots hcovers.writable, signedBound]
    omega
  refine ⟨_, encode_eq_ok hfault hsize capacity order, rfl, fun suffix label => ?_⟩
  have halike := conforms.kept_alike branchFree names numbers
  have hkept := conforms.of_alike (Scope.Extends.refl none) halike
  have hends : ∀ slot ∈ node.slots record, slot.Ends := by
    intro slot hslot
    exact (conforms.holds_slots names slot hslot).ends
  refine ⟨node.kept record, ?_, halike⟩
  have hspelled := spelled_octets_plan typed names hfault hkept hends
  have hmatch := hkept.readsBack branchFree names countsKnown none none _ _ _ reads
    (fun _ _ => rfl) hspelled (Reader.passes_ofBytes _ suffix)
  rw [decodeRecord_eq_ok_some_iff]
  refine ⟨Nat.zero_le _, _, hmatch, ?_, rfl, rfl⟩
  intro hwholly
  cases hwholly

/-- The number one and its two elements, one of them given with the other signedness. -/
theorem conforms_successorRecord :
    successorNode.Conforms none
      (successorRecord (.signed 1) [.number (.unsigned 7), .number (.signed 255)]) := by
  have hslot : ∀ n : Number, (ScalarType.uint8).Holds n →
      (Tag.scalar ⟨.uint8, .big, 0, none⟩).Holds (.number n) :=
    fun n hn => .scalar hn fun demand hdemand => nomatch hdemand
  refine .struct rfl ?_
  simp only [List.zip_cons_cons, List.forall_mem_cons]
  refine ⟨.leaf (hslot _ ⟨1, rfl, by decide, by decide⟩), .array (Or.inr ?_) ?_,
    List.forall_mem_nil _⟩
  · exact eq_ok_of_toOption (by decide +kernel)
  · simp only [List.forall_mem_cons]
    exact ⟨.leaf (hslot _ ⟨7, rfl, by decide, by decide⟩),
      .leaf (hslot _ ⟨255, rfl, by decide, by decide⟩), List.forall_mem_nil _⟩

/-- That record is found again in front of a further byte. -/
theorem decode_encoded_successor :
    ∃ encoded, (successorNode.encode
        (successorRecord (.signed 1) [.number (.unsigned 7), .number (.signed 255)]) 2 .big).1
          = .ok encoded
      ∧ ∃ decoded, (successorNode.decodeRecord ⟨0, false, ""⟩ (encoded.bytes ++ [9])).1
          = .ok ⟨some decoded, encoded.bytes.length, encoded.bytes.length⟩ := by
  obtain ⟨encoded, hencoded, -, hdecode⟩ := decode_encoded distinctKeys_successorDescription
    compile_successorDescription (all_successorNode trivial (fun _ => trivial) trivial)
    (all_successorNode trivial (fun _ => trivial) trivial) conforms_successorRecord
    (by decide) (by decide) 2 .big
  obtain ⟨decoded, hdecoded, -⟩ := hdecode [9] ""
  exact ⟨encoded, hencoded, decoded, hdecoded⟩

end Node

end ByteRecord
