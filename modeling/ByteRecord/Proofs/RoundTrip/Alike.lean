import ByteRecord.Proofs.Length.Lookup
import ByteRecord.Proofs.RoundTrip.Encoded

/-!
# Alike records are encoded alike

What is written for a record does not depend on the signedness with which its integers are kept:
alike records have the same plan, and so the same bytes or the same error. Lengths see the same
numbers in both.
-/

namespace ByteRecord

/-- Alike numbers stand for the same integer in an integer field. -/
theorem Number.Alike.toField_eq {m n : Number} (h : m.Alike n) : m.toField = n.toField := by
  rcases h with rfl | ⟨i, hm, hn⟩
  · rfl
  · rw [toField_eq_of_integer hm, toField_eq_of_integer hn]

theorem ScalarType.ofJson_of_alike (type : ScalarType) {value other : Json}
    (alike : value.Alike other) : type.ofJson value = type.ofJson other := by
  cases alike with
  | number alike =>
    cases type with
    | float32 => simp only [ofJson, alike.toBinary64_eq]
    | float64 => simp only [ofJson, alike.toBinary64_eq]
    | _ => simp only [ofJson, alike.toField_eq]
  | _ => rfl

theorem Json.Alike.fieldBytes_eq {value other : Json} (alike : value.Alike other) :
    value.fieldBytes = other.fieldBytes := by
  cases alike <;> rfl

/-- The same is written for alike values of a slot. -/
theorem Tag.plan_of_alike (tag : Tag) (path : Path) {value other : Json}
    (alike : value.Alike other) : tag.plan path value = tag.plan path other := by
  cases tag with
  | scalar tag => simp only [plan, writes, tag.type.ofJson_of_alike alike]
  | string tag => simp only [plan, writes, alike.fieldBytes_eq]
  | cstring tag => simp only [plan, writes, alike.fieldBytes_eq]

/-- Alike members have the same names, and alike values under each. -/
theorem Members.find?_of_alike {left members : Members}
    (names : left.map Prod.fst = members.map Prod.fst)
    (each : ∀ pair ∈ left.zip members, pair.1.2.Alike pair.2.2) (name : String) :
    (left.find? name = none ∧ members.find? name = none)
      ∨ ∃ value other, left.find? name = some value ∧ members.find? name = some other
          ∧ value.Alike other := by
  induction left generalizing members with
  | nil =>
    rw [List.map_nil, eq_comm, List.map_eq_nil_iff] at names
    exact Or.inl ⟨rfl, names ▸ rfl⟩
  | cons member left ih =>
    cases members with
    | nil => cases names
    | cons other members =>
      obtain ⟨key, value⟩ := member
      obtain ⟨key', value'⟩ := other
      rw [List.map_cons, List.map_cons] at names
      injection names with hkey hnames
      dsimp only at hkey
      subst hkey
      rw [List.zip_cons_cons] at each
      obtain ⟨halike, heach⟩ := List.forall_mem_cons.mp each
      by_cases hname : name = key
      · subst hname
        exact Or.inr ⟨value, value', find?_cons_self .., find?_cons_self .., halike⟩
      · rw [find?_cons_of_ne hname, find?_cons_of_ne hname]
        exact ih hnames heach

/-- A field is looked up in alike members with the same result, number or error. -/
theorem Scope.number_of_alike {left members : Members}
    (names : left.map Prod.fst = members.map Prod.fst)
    (each : ∀ pair ∈ left.zip members, pair.1.2.Alike pair.2.2) (name : String) :
    Scope.number (some left) name = Scope.number (some members) name := by
  unfold number
  rcases Members.find?_of_alike names each name with
    ⟨hleft, hright⟩ | ⟨value, other, hleft, hright, halike⟩
  · simp only [hleft, hright]
  · simp only [hleft, hright]
    cases halike with
    | number alike => exact congrArg Except.ok alike.toBinary64_eq
    | _ => rfl

/-- Plans for items are the same if they are for each. -/
theorem Plan.forItems_congr {plan other : Path → Json → Plan} {path : Path} {index : Nat}
    {xs ys : List Json} (length : xs.length = ys.length)
    (each : ∀ pair ∈ xs.zip ys, ∀ path, plan path pair.1 = other path pair.2) :
    forItems plan path index xs = forItems other path index ys := by
  induction xs generalizing index ys with
  | nil => rw [List.eq_nil_of_length_eq_zero length.symm, forItems, forItems]
  | cons x xs ih =>
    cases ys with
    | nil => cases length
    | cons y ys =>
      rw [List.zip_cons_cons] at each
      obtain ⟨hfirst, hrest⟩ := List.forall_mem_cons.mp each
      rw [forItems, forItems, hfirst, ih (Nat.succ.inj length) hrest]

/-- An array has or lacks its length alike where the declared fields have the same numbers. -/
theorem Length.mismatch?_congr {length : Length} {declared : Declared} {left right : Scope}
    (reads : ∀ name ∈ length.fields, declared.has name = true)
    (agrees : Node.Agrees declared left right) (path : Path) (size : Nat) :
    length.mismatch? left path size = length.mismatch? right path size := by
  unfold mismatch?
  rw [evaluate_congr fun name hname => agrees name (reads name hname)]

namespace Node

/-- Fields have the same plan in two objects if none of them has the field, or both do and the plans
for its values are the same. -/
theorem planFields_congr {fields : List (String × Node)} {members others : Members} {path : Path}
    (each : ∀ field ∈ fields, (members.find? field.1 = none ∧ others.find? field.1 = none)
      ∨ ∃ value other, members.find? field.1 = some value ∧ others.find? field.1 = some other
        ∧ field.2.plan (some members) (path.field field.1) value
          = field.2.plan (some others) (path.field field.1) other) :
    planFields members path fields = planFields others path fields := by
  induction fields with
  | nil => rfl
  | cons field rest ih =>
    obtain ⟨name, node⟩ := field
    obtain ⟨hfirst, hrest⟩ := List.forall_mem_cons.mp each
    rw [planFields, planFields]
    rcases hfirst with ⟨hleft, hright⟩ | ⟨value, other, hleft, hright, hplan⟩
    · simp only [hleft, hright]
    · simp only [hleft, hright, hplan, ih hrest]

/-- Fields have the same plan in alike objects if each field has. -/
theorem planFields_of_alike {members others : Members} {path : Path}
    {fields : List (String × Node)} {declared : List String}
    (names : members.map Prod.fst = others.map Prod.fst)
    (each : ∀ pair ∈ members.zip others, pair.1.2.Alike pair.2.2)
    (reads : FieldsScopedIn declared fields)
    (plans : ∀ field ∈ fields, ∀ names path value other, field.2.ScopedIn (some names) →
      value.Alike other → field.2.plan (some members) path value
        = field.2.plan (some others) path other) :
    planFields members path fields = planFields others path fields := by
  refine planFields_congr fun field hfield => ?_
  rcases Members.find?_of_alike names each field.1 with
    hnone | ⟨value, other, hleft, hright, halike⟩
  · exact Or.inl hnone
  · obtain ⟨before, behind, rfl⟩ := List.append_of_mem hfield
    exact Or.inr ⟨value, other, hleft, hright,
      plans field hfield _ _ value other (FieldsScopedIn.scopedIn reads) halike⟩

/-- Alike values have the same plan where the declared fields have the same numbers. -/
theorem plan_of_alike {node : Node} {declared : Declared} {left right : Scope} {path : Path}
    {value other : Json} (reads : node.ScopedIn declared) (agrees : Agrees declared left right)
    (alike : value.Alike other) : node.plan left path value = node.plan right path other := by
  induction node generalizing declared left right path value other with
  | leaf tag =>
    rw [plan, plan]
    exact tag.plan_of_alike path alike
  | array element length ih =>
    obtain ⟨hfields, helement⟩ := reads
    cases alike with
    | array hlength heach =>
      rename_i xs ys
      have hitems : Plan.forItems (fun path item => element.plan left path item) path 0 xs
          = Plan.forItems (fun path item => element.plan right path item) path 0 ys :=
        Plan.forItems_congr hlength fun pair hpair path => ih helement agrees (heach pair hpair)
      rw [plan, plan]
      simp only [length.mismatch?_congr hfields agrees, hlength, hitems]
    | _ => rfl
  | branch alternatives ih => rw [plan, plan]
  | struct fields ih =>
    cases alike with
    | object hnames heach =>
      rw [plan, plan]
      refine planFields_of_alike hnames heach reads fun field hfield names path value other => ?_
      exact fun hreads halike => ih field hfield hreads
        (fun name _ => Scope.number_of_alike hnames heach name) halike
    | _ => rfl

end Node

end ByteRecord
