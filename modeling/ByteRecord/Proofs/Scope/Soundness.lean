import ByteRecord.Proofs.Decode.Failing
import ByteRecord.Proofs.Encode.Faults
import ByteRecord.Proofs.Schema.Compiled

/-!
# Lengths of compiled schemas are in scope

Compiling checks array lengths against the declared fields, decoding and encoding look them up among
the members at hand. Both are followed from node to node here, and at every node that is reached the
declared fields are among the members. So a look-up finds its field, and it fails only if the value
that it finds is no number.
-/

namespace ByteRecord

/-- Every declared field is among the members of the scope. -/
def Scope.Offers (scope : Scope) (declared : Declared) : Prop :=
  ∀ name, declared.has name = true →
    ∃ members value, scope = some members ∧ members.find? name = some value

/-- The field is in the scope, and its value is no number. -/
def Scope.LacksNumber (scope : Scope) (name : String) : Prop :=
  ∃ members value, scope = some members ∧ members.find? name = some value
    ∧ ∀ n, value ≠ .number n

namespace Scope

variable {scope : Scope} {declared : Declared}

theorem offers_none (scope : Scope) : scope.Offers none := nofun

/-- Members that are found offer their names. -/
theorem offers_of_forall {members : Members} {names : List String}
    (found : ∀ name ∈ names, ∃ value, members.find? name = some value) :
    Scope.Offers (some members) (some names) := by
  intro name hname
  simp only [Declared.has, Option.any_some, List.contains_iff_mem] at hname
  obtain ⟨value, hvalue⟩ := found name hname
  exact ⟨members, value, rfl, hvalue⟩

/-- A declared field that has no number holds something else. -/
theorem Offers.notNumeric (offers : scope.Offers declared) {name : String} {cause : LookupError}
    (hname : declared.has name = true) (h : scope.number name = .error cause) :
    cause = .notNumeric name ∧ scope.LacksNumber name := by
  obtain ⟨members, value, rfl, hfind⟩ := offers name hname
  obtain ⟨hcause, hvalue⟩ := number_eq_error_of_find? hfind h
  exact ⟨hcause, members, value, rfl, hfind, hvalue⟩

end Scope

namespace Node

/-- What is said of the nodes of a list is said of each. -/
theorem AllScopedIn.scopedIn_of_mem {declared : Declared} {nodes : List Node} {node : Node}
    (h : AllScopedIn declared nodes) (hnode : node ∈ nodes) : node.ScopedIn declared := by
  induction nodes with
  | nil => cases hnode
  | cons first rest ih =>
    obtain ⟨hfirst, hrest⟩ := h
    cases hnode with
    | head => exact hfirst
    | tail _ hmem => exact ih hrest hmem

end Node

/-- A node that decoding comes to. -/
structure DecodeSite where
  /-- The members of the nearest struct that are decoded before the node. -/
  scope : Scope
  /-- The node. -/
  node : Node
  /-- Where its bytes start. -/
  reader : Reader

namespace DecodeSite

/-- Decoding goes on from one node to one right below it. -/
inductive Enters : DecodeSite → DecodeSite → Prop
  /-- An element of an array, behind elements that match. -/
  | element {scope : Scope} {element : Node} {length : Length} {r mid : Reader} {items : List Json}
      (run : Run (element.decode scope) r items mid) :
      Enters ⟨scope, .array element length, r⟩ ⟨scope, element, mid⟩
  /-- An alternative of a branch, behind alternatives that do not match. -/
  | alternative {scope : Scope} {before behind : List Node} {node : Node} {r : Reader}
      (tried : ∀ other ∈ before, (other.decode scope r).verdict = .noMatch) :
      Enters ⟨scope, .branch (before ++ node :: behind), r⟩ ⟨scope, node, r⟩
  /-- A field of a struct, behind fields that match. -/
  | field {scope : Scope} {before behind : List (String × Node)} {name : String} {node : Node}
      {r mid : Reader} {members : Members} (run : FieldRun [] before r members mid) :
      Enters ⟨scope, .struct (before ++ (name, node) :: behind), r⟩ ⟨some members, node, mid⟩

/-- Decoding the one node comes to the other. -/
abbrev Reaches : DecodeSite → DecodeSite → Prop := Relation.ReflTransGen Enters

/-- The node is an array whose length reads an earlier field, and that was decoded as no number. -/
def Stuck (site : DecodeSite) (name : String) : Prop :=
  ∃ element length, site.node = .array element length ∧ name ∈ length.fields
    ∧ site.scope.LacksNumber name

end DecodeSite

/-- A node that encoding comes to. -/
structure EncodeSite where
  /-- The fields that stand before the node in the nearest struct. -/
  declared : Declared
  /-- The members of the value that is encoded for this struct. -/
  scope : Scope
  /-- Where the value of the node stands in the record. -/
  path : Path
  /-- The node. -/
  node : Node
  /-- The value that is encoded for it. -/
  value : Json

namespace EncodeSite

/-- Encoding goes on from one node to one right below it. -/
inductive Enters : EncodeSite → EncodeSite → Prop
  /-- An item of an array that has its length. -/
  | item {declared : Declared} {scope : Scope} {path : Path} {element : Node} {length : Length}
      {items : List Json} {i : Nat} {item : Json}
      (counted : length.mismatch? scope path items.length = none) (found : items[i]? = some item) :
      Enters ⟨declared, scope, path, .array element length, .array items⟩
        ⟨declared, scope, path.item i, element, item⟩
  /-- A field of a struct that is there, behind fields that are. -/
  | field {declared : Declared} {scope : Scope} {path : Path}
      {before behind : List (String × Node)} {name : String} {node : Node} {members : Members}
      {value : Json}
      (earlier : ∀ field ∈ before, ∃ value, Members.find? members field.1 = some value)
      (found : members.find? name = some value) :
      Enters ⟨declared, scope, path, .struct (before ++ (name, node) :: behind), .object members⟩
        ⟨some (before.map Prod.fst), some members, path.field name, node, value⟩

/-- Encoding the one node comes to the other. -/
abbrev Reaches : EncodeSite → EncodeSite → Prop := Relation.ReflTransGen Enters

/-- The node is an array whose length reads an earlier field, and the record has no number there. -/
def Stuck (site : EncodeSite) (name : String) : Prop :=
  ∃ element length, site.node = .array element length ∧ name ∈ length.fields
    ∧ site.declared.has name = true ∧ site.scope.LacksNumber name

/-- The two causes for which a schema is at fault when a record is encoded: an array length that
reads a value that is no number, and a branch. -/
def Explains (site : EncodeSite) (cause : SchemaError) : Prop :=
  (∃ name reached, cause = .lookup (.notNumeric name) ∧ site.Reaches reached ∧ reached.Stuck name)
    ∨ ∃ reached alternatives, cause = .branch reached.path ∧ site.Reaches reached
        ∧ reached.node = .branch alternatives

/-- What explains a cause further down explains it here. -/
theorem Explains.of_enters {site below : EncodeSite} {cause : SchemaError}
    (step : site.Enters below) (h : below.Explains cause) : site.Explains cause := by
  rcases h with ⟨name, reached, hcause, hreach, hstuck⟩ |
    ⟨reached, alternatives, hcause, hreach, hnode⟩
  · exact Or.inl ⟨name, reached, hcause, hreach.head step, hstuck⟩
  · exact Or.inr ⟨reached, alternatives, hcause, hreach.head step, hnode⟩

end EncodeSite

namespace Node

variable {node : Node} {declared : Declared} {scope : Scope} {cause : SchemaError}

/-- Where decoding finds the schema at fault, it has come to an array whose length reads an earlier
field that holds no number. -/
theorem exists_stuck_of_decode_fails {r : Reader} (reads : node.ScopedIn declared)
    (offers : scope.Offers declared) (h : (node.decode scope r).Fails (.schema cause)) :
    ∃ name site, cause = .lookup (.notNumeric name)
      ∧ DecodeSite.Reaches ⟨scope, node, r⟩ site ∧ site.Stuck name := by
  induction node generalizing declared scope r with
  | leaf tag =>
    rw [decode] at h
    obtain ⟨bounds, hbounds⟩ := Tag.bounds_of_decode_fails h
    cases hbounds
  | array element length ih =>
    obtain ⟨hfields, helement⟩ := reads
    rcases cases_of_decode_array_fails h with
      hlength | ⟨bounds, hbounds⟩ | ⟨items, mid, run, hfails⟩
    · rcases Length.cases_of_resolve_error hlength with
        ⟨bounds, hbounds⟩ | ⟨name, hname, lookup, hlookup, hnumber⟩
      · cases hbounds
      · cases hlookup
        obtain ⟨rfl, hlacks⟩ := offers.notNumeric (hfields name hname) hnumber
        exact ⟨name, _, rfl, .refl, element, length, rfl, hname, hlacks⟩
    · cases hbounds
    · obtain ⟨name, site, hcause, hreach, hstuck⟩ := ih helement offers hfails
      exact ⟨name, site, hcause, hreach.head (.element run), hstuck⟩
  | branch alternatives ih =>
    rw [decode] at h
    obtain ⟨before, node, behind, rfl, htried, hfails⟩ := decodeFirst_fails_iff.mp h
    have hmem : node ∈ before ++ node :: behind := List.mem_append_right _ List.mem_cons_self
    have hnode := AllScopedIn.scopedIn_of_mem reads hmem
    obtain ⟨name, site, hcause, hreach, hstuck⟩ := ih node hmem hnode offers hfails
    exact ⟨name, site, hcause, hreach.head (.alternative htried), hstuck⟩
  | struct fields ih =>
    obtain ⟨before, key, node, behind, members, mid, rfl, run, hfails⟩ :=
      decode_struct_fails_iff.mp h
    have hmem : (key, node) ∈ before ++ (key, node) :: behind :=
      List.mem_append_right _ List.mem_cons_self
    have hnode : node.ScopedIn (some (before.map Prod.fst)) := FieldsScopedIn.scopedIn reads
    -- The members that are decoded so far have the names that are declared so far.
    have hoffers : Scope.Offers (some members) (some (before.map Prod.fst)) := by
      refine Scope.offers_of_forall fun name hname => Members.exists_find? ?_
      rwa [run.names_eq]
    obtain ⟨name, site, hcause, hreach, hstuck⟩ := ih _ hmem hnode hoffers hfails
    exact ⟨name, site, hcause, hreach.head (.field run), hstuck⟩

/-- Where the plan for a record finds the schema at fault, one of the two causes explains it. -/
theorem explains_of_fault {path : Path} {value : Json} (reads : node.ScopedIn declared)
    (offers : scope.Offers declared)
    (h : (node.plan scope path value).fault = some (.schema cause)) :
    EncodeSite.Explains ⟨declared, scope, path, node, value⟩ cause := by
  induction node generalizing declared scope path value with
  | leaf tag =>
    rw [plan] at h
    obtain ⟨error, herror⟩ := Tag.exists_of_fault_plan h
    cases herror
  | array element length ih =>
    obtain ⟨hfields, helement⟩ := reads
    cases value with
    | array items =>
      rw [plan] at h
      cases hmismatch : length.mismatch? scope path items.length with
      | some other =>
        simp only [hmismatch, Plan.failing, Option.some.injEq] at h
        rcases Length.cases_of_mismatch hmismatch with
          ⟨error, herror⟩ | ⟨name, hname, lookup, hlookup, hnumber⟩
        · simp [h] at herror
        · obtain ⟨rfl, hlacks⟩ := offers.notNumeric (hfields name hname) hnumber
          have hcause : cause = .lookup (.notNumeric name) :=
            Error.schema.inj (h.symm.trans hlookup)
          exact Or.inl ⟨name, _, hcause, .refl, element, length, rfl, hname, hfields name hname,
            hlacks⟩
      | none =>
        simp only [hmismatch] at h
        obtain ⟨before, item, behind, rfl, -, hfault⟩ := Plan.fault_forItems_eq_some_iff.mp h
        rw [Nat.zero_add] at hfault
        have hitem : (before ++ item :: behind)[before.length]? = some item := by simp
        exact (ih helement offers hfault).of_enters (.item hmismatch hitem)
    | _ => cases h
  | branch alternatives ih =>
    cases h
    exact Or.inr ⟨_, alternatives, rfl, .refl, rfl⟩
  | struct fields ih =>
    cases value with
    | object members =>
      rw [plan] at h
      obtain ⟨before, name, node, behind, rfl, hnone, ⟨-, hmissing⟩ | ⟨value, hfind, hfault⟩⟩ :=
        fault_planFields_eq_some_iff.mp h
      · cases hmissing
      · have hmem : (name, node) ∈ before ++ (name, node) :: behind :=
          List.mem_append_right _ List.mem_cons_self
        have hnode : node.ScopedIn (some (before.map Prod.fst)) := FieldsScopedIn.scopedIn reads
        -- Nothing is encoded behind a missing field, so the record has all that are declared.
        have hbefore : ∀ field ∈ before, ∃ value, Members.find? members field.1 = some value := by
          intro field hfield
          obtain ⟨value, hvalue, -⟩ := exists_of_fault_planFields hnone field hfield
          exact ⟨value, hvalue⟩
        have hoffers : Scope.Offers (some members) (some (before.map Prod.fst)) := by
          refine Scope.offers_of_forall fun name hname => ?_
          obtain ⟨field, hfield, rfl⟩ := List.mem_map.mp hname
          exact hbefore field hfield
        exact (ih _ hmem hnode hoffers hfault).of_enters (.field hbefore hfind)
    | _ => cases h

theorem explains_of_encodeAt_error {record : Json} {c : Cursor} (reads : node.ScopedIn none)
    (h : (node.encodeAt .root record c).result = .error (.schema cause)) :
    EncodeSite.Explains ⟨none, none, .root, node, record⟩ cause := by
  rcases cases_of_encodeAt_error h with ⟨capacity, hcapacity⟩ | hfault
  · cases hcapacity
  · exact explains_of_fault reads (Scope.offers_none _) hfault

/-- No array length of a compiled schema reads a field that is undefined or outside of a struct.
Decoding finds such a schema at fault only where an array length reads an earlier field of the
nearest struct that was decoded as no number. Encoding does so only where the record has no number
in such a field, or at a branch. -/
theorem compile_scope_sound {description : Json} (compiled : compile description = .ok node) :
    (∀ options bytes cause, (node.decodeRecord options bytes).1 = .error (.schema cause) →
      ∃ name site, cause = .lookup (.notNumeric name)
        ∧ DecodeSite.Reaches ⟨none, node, (Reader.ofBytes bytes).advance options.offset⟩ site
        ∧ site.Stuck name)
    ∧ (∀ record capacity order cause,
        (node.encode record capacity order).1 = .error (.schema cause) →
          EncodeSite.Explains ⟨none, none, .root, node, record⟩ cause)
    ∧ ∀ record c offset cause, (node.encodeInto record c offset).result = .error (.schema cause) →
        EncodeSite.Explains ⟨none, none, .root, node, record⟩ cause := by
  have reads := scopedIn_of_compile compiled
  refine ⟨?_, ?_, ?_⟩
  · intro options bytes cause h
    rcases decodeRecord_eq_error_iff.mp h with ⟨-, hcause⟩ | ⟨-, hfails⟩
    · cases hcause
    · exact exists_stuck_of_decode_fails reads (Scope.offers_none _) hfails
  · intro record capacity order cause h
    refine explains_of_encodeAt_error reads (c := Cursor.empty capacity order true) ?_
    cases hresult : (node.encodeAt .root record (Cursor.empty capacity order true)).result with
    | error other => simpa [encode, hresult, Except.map] using h
    | ok written => simp [encode, hresult, Except.map] at h
  · intro record c offset cause h
    rw [encodeInto] at h
    split at h
    · cases h
    · exact explains_of_encodeAt_error reads h

/-- Describes a text and as many numbers as the text says. -/
def textCountDescription : Json :=
  .object [("s", .string "string:1"), ("xs", .array [.string "uint8", .string "s"])]

/-- The schema of that description. -/
def textCountNode : Node :=
  struct [("s", leaf (.string ⟨1, none⟩)),
    ("xs", array (leaf (.scalar ⟨.uint8, .big, 0, none⟩)) (.field "s"))]

/-- A record of that schema, up to the length of its array. -/
def textCountRecord : Json := .object [("xs", .array []), ("s", .string "a")]

/-- A text may stand where an array length reads it. Then the array has no length. -/
theorem compile_scope_sound_text :
    (textCountNode.decodeRecord ⟨0, false, ""⟩ [0x61]).1
        = .error (.schema (.lookup (.notNumeric "s")))
      ∧ (∃ name site, DecodeSite.Reaches ⟨none, textCountNode, ⟨0, [0x61]⟩⟩ site
        ∧ DecodeSite.Stuck site name)
      ∧ EncodeSite.Explains ⟨none, none, .root, textCountNode, textCountRecord⟩
          (.lookup (.notNumeric "s")) := by
  have compiled : compile textCountDescription = .ok textCountNode := rfl
  have decoded : (textCountNode.decodeRecord ⟨0, false, ""⟩ [0x61]).1
      = .error (.schema (.lookup (.notNumeric "s"))) := rfl
  have encoded : (textCountNode.encode textCountRecord 0 .big).1
      = .error (.schema (.lookup (.notNumeric "s"))) := rfl
  obtain ⟨hdecode, hencode, -⟩ := compile_scope_sound compiled
  obtain ⟨name, site, -, hreach, hstuck⟩ := hdecode ⟨0, false, ""⟩ _ _ decoded
  exact ⟨decoded, ⟨name, site, hreach, hstuck⟩, hencode _ _ _ _ encoded⟩

end Node

end ByteRecord
