import ByteRecord.Proofs.Encode.Conforming
import ByteRecord.Proofs.Encode.Written
import ByteRecord.Proofs.Scope.Soundness

/-!
# Which records are encoded

`Node.Accepts` says which values have the shape of a schema, without reference to what is written for
them: numbers and texts that their slots can take, arrays of the size that their length asks for, and
objects that have every declared field. Exactly these records are encoded. Of the others the record
is at fault, unless encoding comes to something that the schema cannot say: `Node.Obstructs` follows it
to the first branch, or to the first array length that reads a value which is no number.
-/

namespace ByteRecord

variable {path : Path} {value : Json} {scope : Scope}

/-- The number is taken by a slot of the type. A floating-point slot takes every number; an integer
slot takes every integer, and other numbers if they are finite and in the range of signed 64-bit
integers. -/
inductive ScalarType.Accepts : ScalarType → Number → Prop
  /-- Any number in a floating-point slot. -/
  | float {type : ScalarType} {n : Number} (float : type.isFloat = true) : Accepts type n
  /-- Any integer. -/
  | integer {type : ScalarType} {n : Number} {i : Int} (integer : n.integer? = some i) :
      Accepts type n
  /-- A number that need not be whole, in units of the least positive one. -/
  | real {type : ScalarType} {x : Binary64} (finite : x.isFinite = true)
      (least : -(signedBound * Binary64.format.one : Int) ≤ x.scaled)
      (bound : x.scaled < (signedBound * Binary64.format.one : Int)) : Accepts type (.real x)

/-- The value is taken by a slot of the tag. The demand of the tag and the width of the slot do not
matter. -/
inductive Tag.Accepts : Tag → Json → Prop
  /-- A number that the type takes. -/
  | scalar {tag : ScalarTag} {n : Number} (number : tag.type.Accepts n) :
      Accepts (.scalar tag) (.number n)
  /-- A text of characters up to U+00FF. -/
  | string {tag : TextTag} {s : String} (chars : IsFieldText s) : Accepts (.string tag) (.string s)
  /-- A text of characters up to U+00FF. -/
  | cstring {tag : TextTag} {s : String} (chars : IsFieldText s) :
      Accepts (.cstring tag) (.string s)

/-- The value has the shape of the node, where array lengths read the given scope. No value has the
shape of a branch. -/
inductive Node.Accepts : Scope → Node → Json → Prop
  /-- A value that its slot takes. -/
  | leaf {scope : Scope} {tag : Tag} {value : Json} (takes : tag.Accepts value) :
      Accepts scope (.leaf tag) value
  /-- An array whose size is what its length comes to, if the length comes to a count at all. -/
  | array {scope : Scope} {element : Node} {length : Length} {items : List Json}
      (size : length.evaluate scope = .ok none ∨ length.evaluate scope = .ok (some items.length))
      (each : ∀ item ∈ items, Accepts scope element item) :
      Accepts scope (.array element length) (.array items)
  /-- An object that has every declared field. It is the scope of its parts. -/
  | struct {scope : Scope} {fields : List (String × Node)} {members : Members}
      (found : ∀ field ∈ fields, (members.find? field.1).isSome = true)
      (each : ∀ field ∈ fields, ∀ value, members.find? field.1 = some value →
        Accepts (some members) field.2 value) :
      Accepts scope (.struct fields) (.object members)

/-- Encoding comes to a branch, or to an array length that reads a value which is no number. What
stands before that is accepted. -/
inductive Node.Obstructs : Scope → Node → Json → Prop
  /-- A branch, whatever the value is. -/
  | branch {scope : Scope} {alternatives : List Node} {value : Json} :
      Obstructs scope (.branch alternatives) value
  /-- An array whose length reads a value that is no number. -/
  | length {scope : Scope} {element : Node} {length : Length} {items : List Json} {name : String}
      (reads : name ∈ length.fields) (lacks : scope.LacksNumber name) :
      Obstructs scope (.array element length) (.array items)
  /-- An item of an array of the right size. -/
  | item {scope : Scope} {element : Node} {length : Length} {before behind : List Json} {item : Json}
      (size : length.evaluate scope = .ok none
        ∨ length.evaluate scope = .ok (some (before ++ item :: behind).length))
      (earlier : ∀ other ∈ before, element.Accepts scope other)
      (below : Obstructs scope element item) :
      Obstructs scope (.array element length) (.array (before ++ item :: behind))
  /-- A field of a struct. -/
  | field {scope : Scope} {before behind : List (String × Node)} {name : String} {node : Node}
      {members : Members} {value : Json}
      (earlier : ∀ field ∈ before, ∃ value, Members.find? members field.1 = some value
        ∧ field.2.Accepts (some members) value)
      (found : Members.find? members name = some value)
      (below : Obstructs (some members) node value) :
      Obstructs scope (.struct (before ++ (name, node) :: behind)) (.object members)

/-- The range of signed 64-bit integers, in units of the least positive number. -/
theorem Binary64.fitsInt64_iff {x : Binary64} :
    x.fitsInt64 = true ↔ x.isFinite = true
      ∧ -(signedBound * format.one : Int) ≤ x.scaled
      ∧ x.scaled < (signedBound * format.one : Int) := by
  simp only [fitsInt64, Bool.and_eq_true, decide_eq_true_eq, and_assoc]

/-- A number has an integer for an integer field exactly if such a field takes it. -/
theorem Number.exists_toField_iff {type : ScalarType} (h : type.isFloat = false) {n : Number} :
    (∃ k, n.toField = .ok k) ↔ type.Accepts n := by
  constructor
  · rintro ⟨k, hk⟩
    cases n with
    | unsigned n => exact .integer rfl
    | signed n => exact .integer rfl
    | real x =>
      rw [toField] at hk
      split at hk
      · rename_i hfits
        obtain ⟨hfinite, hleast, hbound⟩ := Binary64.fitsInt64_iff.mp hfits
        exact .real hfinite hleast hbound
      · cases hk
  · intro haccepts
    cases haccepts with
    | float hfloat =>
      rw [h] at hfloat
      cases hfloat
    | integer hinteger =>
      cases n with
      | unsigned n => exact ⟨_, rfl⟩
      | signed n => exact ⟨_, rfl⟩
      | real x => cases hinteger
    | real hfinite hleast hbound =>
      exact ⟨_, if_pos (Binary64.fitsInt64_iff.mpr ⟨hfinite, hleast, hbound⟩)⟩

/-- A number stands for a value of a slot exactly if the slot takes it. -/
theorem ScalarType.exists_ofJson_iff {type : ScalarType} {n : Number} :
    (∃ scalar, type.ofJson (.number n) = .ok scalar) ↔ type.Accepts n := by
  cases hfloat : type.isFloat with
  | true =>
    refine iff_of_true ?_ (.float hfloat)
    cases type
    case float32 => exact ⟨_, rfl⟩
    case float64 => exact ⟨_, rfl⟩
    all_goals cases hfloat
  | false =>
    rw [← Number.exists_toField_iff hfloat, ofJson_eq_toField hfloat]
    constructor
    · rintro ⟨scalar, hscalar⟩
      obtain ⟨k, hk, -⟩ := map_eq_ok_iff.mp hscalar
      exact ⟨k, hk⟩
    · rintro ⟨k, hk⟩
      exact ⟨.signed k, map_eq_ok_iff.mpr ⟨k, hk, rfl⟩⟩

/-- A value has the bytes of a text exactly if it is a text of characters up to U+00FF. -/
theorem Json.exists_fieldBytes_iff :
    (∃ text, value.fieldBytes = .ok text) ↔ ∃ s, value = .string s ∧ IsFieldText s := by
  constructor
  · rintro ⟨text, htext⟩
    exact ⟨_, eq_fieldText_of_fieldBytes htext, isFieldText_fieldText text⟩
  · rintro ⟨s, rfl, hchars⟩
    obtain ⟨text, -, htext⟩ := IsFieldText.fieldBytes_eq_ok hchars
    exact ⟨text, htext⟩

/-- Something is written for a value exactly if its slot takes it. -/
theorem Tag.writable_iff {tag : Tag} : Slot.Writable ⟨tag, value⟩ ↔ tag.Accepts value := by
  have hmap : ∀ {α : Type} {x : Except RecordError α} {f : α → List Write},
      (∃ writes, x.map f = .ok writes) ↔ ∃ a, x = .ok a := by
    intro α x f
    simp only [map_eq_ok_iff]
    exact ⟨fun ⟨_, a, ha, _⟩ => ⟨a, ha⟩, fun ⟨a, ha⟩ => ⟨_, a, ha, rfl⟩⟩
  unfold Slot.Writable
  cases tag with
  | scalar tag =>
    refine hmap.trans ⟨?_, ?_⟩
    · rintro ⟨scalar, hscalar⟩
      obtain ⟨n, rfl, -⟩ := ScalarType.ofJson_cases hscalar
      exact .scalar (ScalarType.exists_ofJson_iff.mp ⟨scalar, hscalar⟩)
    · intro haccepts
      cases haccepts with
      | scalar hnumber => exact ScalarType.exists_ofJson_iff.mpr hnumber
  | string tag =>
    refine (hmap.trans Json.exists_fieldBytes_iff).trans ⟨?_, ?_⟩
    · rintro ⟨s, rfl, hchars⟩
      exact .string hchars
    · intro haccepts
      cases haccepts with
      | string hchars => exact ⟨_, rfl, hchars⟩
  | cstring tag =>
    refine (hmap.trans Json.exists_fieldBytes_iff).trans ⟨?_, ?_⟩
    · rintro ⟨s, rfl, hchars⟩
      exact .cstring hchars
    · intro haccepts
      cases haccepts with
      | cstring hchars => exact ⟨_, rfl, hchars⟩

/-- An array has its length exactly if its size is what the length comes to, if that is a count. -/
theorem Length.mismatch?_eq_none_iff {length : Length} {size : Nat} :
    length.mismatch? scope path size = none ↔
      length.evaluate scope = .ok none ∨ length.evaluate scope = .ok (some size) := by
  unfold mismatch?
  cases hcount : length.evaluate scope with
  | error cause => cases cause <;> simp
  | ok count? =>
    cases count? with
    | none => simp
    | some required => simp [eq_comm]

/-- A field that holds no number is not read as one. -/
theorem Scope.LacksNumber.number_eq {name : String} (h : scope.LacksNumber name) :
    scope.number name = .error (.notNumeric name) := by
  obtain ⟨members, value, rfl, hfind, hvalue⟩ := h
  rw [Scope.number, hfind]
  cases value with
  | number n => exact absurd rfl (hvalue n)
  | _ => rfl

/-- Where the fields that it reads are there, the schema is at fault for the size of an array exactly
if its length reads a value that is no number. -/
theorem Length.exists_schema_mismatch_iff {length : Length} {declared : Declared} {size : Nat}
    (reads : ∀ name ∈ length.fields, declared.has name = true) (offers : scope.Offers declared) :
    (∃ error, length.mismatch? scope path size = some (.schema error)) ↔
      ∃ name ∈ length.fields, scope.LacksNumber name := by
  constructor
  · rintro ⟨error, herror⟩
    rcases cases_of_mismatch herror with ⟨other, hother⟩ | ⟨name, hname, cause, -, hnumber⟩
    · cases hother
    · exact ⟨name, hname, (offers.notNumeric (reads name hname) hnumber).2⟩
  · rintro ⟨name, hname, hlacks⟩
    obtain ⟨other, hother⟩ := exists_evaluate_error hname hlacks.number_eq
    refine ⟨.lookup other, ?_⟩
    rw [mismatch?, hother]

/-- Items have no fault exactly if none of them has one. -/
theorem Plan.fault_forItems_eq_none_iff {plan : Path → Json → Plan} {accepts : Json → Prop}
    {index : Nat} {items : List Json}
    (each : ∀ path item, (plan path item).fault = none ↔ accepts item) :
    (forItems plan path index items).fault = none ↔ ∀ item ∈ items, accepts item := by
  constructor
  · intro h item hitem
    obtain ⟨place, hplace⟩ := exists_of_fault_forItems h item hitem
    exact (each place item).mp hplace
  · intro h
    exact fault_forItems fun item hitem place => (each place item).mpr (h item hitem)

namespace Node

variable {node : Node} {members : Members} {fields : List (String × Node)} {cause : Error}

/-- Fields have no fault exactly if each is found and has none. -/
theorem fault_planFields_eq_none_iff {accepts : String × Node → Json → Prop}
    (each : ∀ field ∈ fields, ∀ path value,
      (field.2.plan (some members) path value).fault = none ↔ accepts field value) :
    (planFields members path fields).fault = none ↔
      ∀ field ∈ fields, ∃ value, members.find? field.1 = some value ∧ accepts field value := by
  induction fields with
  | nil => exact iff_of_true rfl (List.forall_mem_nil _)
  | cons field rest ih =>
    obtain ⟨name, node⟩ := field
    obtain ⟨hfield, hrest⟩ := List.forall_mem_cons.mp each
    rw [planFields, List.forall_mem_cons]
    cases hfind : members.find? name with
    | none => simp [Plan.failing]
    | some value =>
      dsimp only
      rw [Plan.fault_append_eq_none_iff, hfield, ih hrest]
      simp

/-- The plan for a value has no fault exactly if the value has the shape of the node. -/
theorem fault_plan_eq_none_iff :
    (node.plan scope path value).fault = none ↔ node.Accepts scope value := by
  induction node generalizing scope path value with
  | leaf tag =>
    rw [plan, Tag.fault_plan_eq_none_iff, Tag.writable_iff]
    constructor
    · exact .leaf
    · intro haccepts
      cases haccepts with
      | leaf htakes => exact htakes
  | array element length ih =>
    have heach : ∀ path item, (element.plan scope path item).fault = none ↔
        element.Accepts scope item := fun path item => ih
    constructor
    · intro h
      cases value with
      | array items =>
        rw [plan] at h
        cases hmismatch : length.mismatch? scope path items.length with
        | some cause =>
          rw [hmismatch] at h
          cases h
        | none =>
          rw [hmismatch] at h
          have hitems := (Plan.fault_forItems_eq_none_iff heach).mp h
          exact .array (Length.mismatch?_eq_none_iff.mp hmismatch) hitems
      | _ => cases h
    · intro haccepts
      cases haccepts with
      | array hsize hitems =>
        rw [plan, Length.mismatch?_eq_none_iff.mpr hsize]
        exact (Plan.fault_forItems_eq_none_iff heach).mpr hitems
  | branch alternatives ih =>
    constructor
    · intro h
      cases h
    · intro haccepts
      cases haccepts
  | struct fields ih =>
    have hfields : ∀ members path, (planFields members path fields).fault = none ↔
        ∀ field ∈ fields, ∃ value, Members.find? members field.1 = some value
          ∧ field.2.Accepts (some members) value := fun members path =>
      fault_planFields_eq_none_iff fun field hfield path value => ih field hfield
    constructor
    · intro h
      cases value with
      | object members =>
        rw [plan, hfields] at h
        refine .struct (fun field hfield => ?_) fun field hfield value hvalue => ?_
        · obtain ⟨value, hvalue, -⟩ := h field hfield
          rw [hvalue, Option.isSome_some]
        · obtain ⟨other, hother, haccepts⟩ := h field hfield
          obtain rfl : value = other := Option.some.inj (hvalue.symm.trans hother)
          exact haccepts
      | _ => cases h
    · intro haccepts
      cases haccepts with
      | struct hfound heach =>
        rw [plan, hfields]
        intro field hfield
        obtain ⟨value, hvalue⟩ := Option.isSome_iff_exists.mp (hfound field hfield)
        exact ⟨value, hvalue, heach field hfield value hvalue⟩

/-- The fault of a plan is one of the record or one of the schema. -/
theorem record_or_schema_of_fault (h : (node.plan scope path value).fault = some cause) :
    (∃ place error, cause = .record place error) ∨ ∃ error, cause = .schema error := by
  induction node generalizing scope path value with
  | leaf tag =>
    rw [plan] at h
    obtain ⟨error, rfl⟩ := Tag.exists_of_fault_plan h
    exact Or.inl ⟨path, error, rfl⟩
  | array element length ih =>
    cases value with
    | array items =>
      rw [plan] at h
      cases hmismatch : length.mismatch? scope path items.length with
      | some other =>
        rw [hmismatch] at h
        obtain rfl : other = cause := Option.some.inj h
        rcases Length.cases_of_mismatch hmismatch with
          ⟨error, rfl⟩ | ⟨name, -, lookup, rfl, -⟩
        · exact Or.inl ⟨path, error, rfl⟩
        · exact Or.inr ⟨_, rfl⟩
      | none =>
        rw [hmismatch] at h
        obtain ⟨before, item, behind, -, -, hfault⟩ := Plan.fault_forItems_eq_some_iff.mp h
        exact ih hfault
    | _ => exact Or.inl ⟨path, _, (Option.some.inj h).symm⟩
  | branch alternatives ih => exact Or.inr ⟨_, (Option.some.inj h).symm⟩
  | struct fields ih =>
    cases value with
    | object members =>
      rw [plan] at h
      obtain ⟨before, name, node, behind, rfl, -, ⟨-, rfl⟩ | ⟨value, -, hfault⟩⟩ :=
        fault_planFields_eq_some_iff.mp h
      · exact Or.inl ⟨_, _, rfl⟩
      · exact ih (name, node) (List.mem_append_right _ List.mem_cons_self) hfault
    | _ => exact Or.inl ⟨path, _, (Option.some.inj h).symm⟩

/-- The schema is at fault for an array exactly if it is for the length or for the first item that is
not accepted. -/
theorem exists_schema_fault_array_iff {element : Node} {length : Length} {declared : Declared}
    (reads : ∀ name ∈ length.fields, declared.has name = true) (offers : scope.Offers declared)
    (each : ∀ path item, (∃ error, (element.plan scope path item).fault = some (.schema error)) ↔
      element.Obstructs scope item) :
    (∃ error, ((array element length).plan scope path value).fault = some (.schema error)) ↔
      (array element length).Obstructs scope value := by
  have haccepts : ∀ path item, (element.plan scope path item).fault = none ↔
      element.Accepts scope item := fun path item => fault_plan_eq_none_iff
  constructor
  · rintro ⟨error, h⟩
    cases value with
    | array items =>
      rw [plan] at h
      cases hmismatch : length.mismatch? scope path items.length with
      | some other =>
        rw [hmismatch] at h
        obtain rfl : other = .schema error := Option.some.inj h
        obtain ⟨name, hname, hlacks⟩ :=
          (Length.exists_schema_mismatch_iff reads offers).mp ⟨error, hmismatch⟩
        exact .length hname hlacks
      | none =>
        rw [hmismatch] at h
        obtain ⟨before, item, behind, rfl, hbefore, hitem⟩ :=
          Plan.fault_forItems_eq_some_iff.mp h
        exact .item (Length.mismatch?_eq_none_iff.mp hmismatch)
          ((Plan.fault_forItems_eq_none_iff haccepts).mp hbefore) ((each _ _).mp ⟨error, hitem⟩)
    | _ => cases h
  · intro hobstructs
    cases hobstructs with
    | length hname hlacks =>
      obtain ⟨error, herror⟩ :=
        (Length.exists_schema_mismatch_iff reads offers).mpr ⟨_, hname, hlacks⟩
      refine ⟨error, ?_⟩
      rw [plan, herror]
      rfl
    | item hsize hearlier hbelow =>
      obtain ⟨error, herror⟩ := (each _ _).mpr hbelow
      refine ⟨error, ?_⟩
      rw [plan, Length.mismatch?_eq_none_iff.mpr hsize]
      exact Plan.fault_forItems_eq_some_iff.mpr
        ⟨_, _, _, rfl, (Plan.fault_forItems_eq_none_iff haccepts).mpr hearlier, herror⟩

/-- The schema is at fault for a struct exactly if it is for the first field that is not accepted. -/
theorem exists_schema_fault_struct_iff
    (each : ∀ before name node behind, fields = before ++ (name, node) :: behind →
      ∀ members : Members, (∀ field ∈ before, ∃ value, members.find? field.1 = some value) →
      ∀ path value, (∃ error, (node.plan (some members) path value).fault = some (.schema error)) ↔
        node.Obstructs (some members) value) :
    (∃ error, ((struct fields).plan scope path value).fault = some (.schema error)) ↔
      (struct fields).Obstructs scope value := by
  have haccepts : ∀ members path (before : List (String × Node)),
      (planFields members path before).fault = none ↔
        ∀ field ∈ before, ∃ value, Members.find? members field.1 = some value
          ∧ field.2.Accepts (some members) value := fun members path before =>
    fault_planFields_eq_none_iff fun field _ path value => fault_plan_eq_none_iff
  constructor
  · rintro ⟨error, h⟩
    cases value with
    | object members =>
      rw [plan] at h
      obtain ⟨before, name, node, behind, hsplit, hnone, ⟨-, hmissing⟩ | ⟨value, hfind, hfault⟩⟩ :=
        fault_planFields_eq_some_iff.mp h
      · cases hmissing
      · have hearlier := (haccepts members path before).mp hnone
        have hfound := fun field hfield => (hearlier field hfield).imp fun _ => And.left
        have hbelow := (each _ _ _ _ hsplit members hfound _ _).mp ⟨error, hfault⟩
        subst hsplit
        exact .field hearlier hfind hbelow
    | _ => cases h
  · intro hobstructs
    cases hobstructs with
    | field hearlier hfind hbelow =>
      have hfound := fun field hfield => (hearlier field hfield).imp fun _ => And.left
      obtain ⟨error, herror⟩ := (each _ _ _ _ rfl _ hfound _ _).mpr hbelow
      refine ⟨error, ?_⟩
      rw [plan]
      exact fault_planFields_eq_some_iff.mpr
        ⟨_, _, _, _, rfl, (haccepts _ path _).mpr hearlier, Or.inr ⟨_, hfind, herror⟩⟩

/-- Where every length reads fields that are there, the schema is at fault for a plan exactly if
encoding comes to a branch or to a length that reads a value which is no number. -/
theorem exists_schema_fault_iff {declared : Declared} (reads : node.ScopedIn declared)
    (offers : scope.Offers declared) :
    (∃ error, (node.plan scope path value).fault = some (.schema error)) ↔
      node.Obstructs scope value := by
  induction node generalizing declared scope path value with
  | leaf tag =>
    constructor
    · rintro ⟨error, h⟩
      rw [plan] at h
      obtain ⟨other, hother⟩ := Tag.exists_of_fault_plan h
      cases hother
    · intro hobstructs
      cases hobstructs
  | array element length ih =>
    obtain ⟨hfields, helement⟩ := reads
    exact exists_schema_fault_array_iff hfields offers fun path item => ih helement offers
  | branch alternatives ih => exact iff_of_true ⟨_, rfl⟩ .branch
  | struct fields ih =>
    refine exists_schema_fault_struct_iff fun before name node behind hsplit members hfound path
      value => ?_
    subst hsplit
    -- Nothing is encoded behind a missing field, so the record has all that are declared.
    refine ih (name, node) (List.mem_append_right _ List.mem_cons_self)
      (FieldsScopedIn.scopedIn reads) (Scope.offers_of_forall fun other hother => ?_)
    obtain ⟨field, hfield, rfl⟩ := List.mem_map.mp hother
    exact hfound field hfield

variable {description record : Json} {capacity : Nat} {order : Endian}

/-- As long as there is room, encoding ends in the fault of the plan. -/
theorem encode_eq_error_iff (small : (node.plan none .root record).octets.length ≤ signedBound) :
    (node.encode record capacity order).1 = .error cause ↔
      (node.plan none .root record).fault = some cause := by
  constructor
  · intro h
    cases hfault : (node.plan none .root record).fault with
    | none =>
      rw [encode_eq_ok hfault small] at h
      cases h
    | some other =>
      rw [encode_eq_error hfault small] at h
      exact congrArg some (Except.error.inj h)
  · intro hfault
    exact encode_eq_error hfault small capacity order

/-- A record is encoded exactly if it has the shape of its schema. Otherwise the schema is at fault if
encoding comes to a branch or to an array length that reads a value which is no number, and the record
is if it does not. -/
theorem encode_accepts (compiled : compile description = .ok node)
    (small : (node.plan none .root record).octets.length ≤ signedBound) (capacity : Nat)
    (order : Endian) :
    ((∃ encoded, (node.encode record capacity order).1 = .ok encoded) ↔ node.Accepts none record)
      ∧ ((∃ error, (node.encode record capacity order).1 = .error (.schema error)) ↔
          node.Obstructs none record)
      ∧ ((∃ place error, (node.encode record capacity order).1 = .error (.record place error)) ↔
          ¬ node.Accepts none record ∧ ¬ node.Obstructs none record)
      ∧ ∀ cause, (node.encode record capacity order).1 = .error cause →
          (∃ error, cause = .schema error) ∨ ∃ place error, cause = .record place error := by
  have haccepts : (∃ encoded, (node.encode record capacity order).1 = .ok encoded) ↔
      node.Accepts none record := by
    rw [← fault_plan_eq_none_iff]
    constructor
    · rintro ⟨encoded, hencoded⟩
      exact (plan_of_encode_eq_ok hencoded).1
    · intro hfault
      exact ⟨_, encode_eq_ok hfault small capacity order⟩
  have hobstructs : (∃ error, (node.encode record capacity order).1 = .error (.schema error)) ↔
      node.Obstructs none record := by
    rw [← exists_schema_fault_iff (scopedIn_of_compile compiled) (Scope.offers_none _)]
    exact exists_congr fun error => encode_eq_error_iff small
  have hkinds : ∀ cause, (node.encode record capacity order).1 = .error cause →
      (∃ place error, cause = .record place error) ∨ ∃ error, cause = .schema error :=
    fun cause hcause => record_or_schema_of_fault ((encode_eq_error_iff small).mp hcause)
  refine ⟨haccepts, hobstructs, ?_, fun cause hcause => (hkinds cause hcause).symm⟩
  rw [← haccepts, ← hobstructs]
  cases hresult : (node.encode record capacity order).1 with
  | ok encoded => simp
  | error cause =>
    rcases hkinds cause hresult with ⟨place, error, rfl⟩ | ⟨error, rfl⟩
    · simp
    · simp

/-- Describes a text and rows that are as long as the text says. -/
def textRowsDescription : Json :=
  .object [("s", .string "string:1"),
    ("rows", .array [.array [.string "uint8", .string "s"], .string "*"])]

/-- The schema of that description. -/
def textRowsNode : Node :=
  struct [("s", leaf (.string ⟨1, none⟩)),
    ("rows", array (array (leaf (.scalar ⟨.uint8, .big, 0, none⟩)) (.field "s")) .remainder)]

/-- A record of a text and rows. -/
def textRowsRecord (rows : List Json) : Json :=
  .object [("rows", .array rows), ("s", .string "a")]

/-- Without rows nothing reads how long they are. The first row is obstructed; what is no row is not
come to. -/
theorem encode_accepts_textRows :
    textRowsNode.Accepts none (textRowsRecord [])
      ∧ textRowsNode.Obstructs none (textRowsRecord [.array [], .null])
      ∧ ¬ textRowsNode.Accepts none (textRowsRecord [.null, .array []])
      ∧ ¬ textRowsNode.Obstructs none (textRowsRecord [.null, .array []]) := by
  have compiled : compile textRowsDescription = .ok textRowsNode := rfl
  have hrows : ∀ rows ∈ [[], [.array [], .null], [.null, .array []]],
      (textRowsNode.plan none .root (textRowsRecord rows)).octets.length ≤ signedBound := by
    decide
  obtain ⟨hempty, hfirst, hlater, -⟩ := by simpa only [List.forall_mem_cons] using hrows
  obtain ⟨haccepts, -⟩ := encode_accepts compiled hempty 0 .big
  obtain ⟨-, hobstructs, -⟩ := encode_accepts compiled hfirst 0 .big
  obtain ⟨-, -, hneither, -⟩ := encode_accepts compiled hlater 0 .big
  exact ⟨haccepts.mp ⟨_, rfl⟩, hobstructs.mp ⟨_, rfl⟩, hneither.mp ⟨_, _, rfl⟩⟩

end Node

end ByteRecord
