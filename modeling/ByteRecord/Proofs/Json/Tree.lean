import ByteRecord.Json.Basic

/-!
# JSON values as trees

Induction over the parts of a JSON value, and the values in which no object repeats a name. Giving a
name a value keeps it that way.
-/

namespace ByteRecord

namespace Json

/-- A property of all values follows from what it says about the parts of a value. -/
@[induction_eliminator]
theorem ind {motive : Json → Prop} (null : motive null) (bool : ∀ value, motive (bool value))
    (number : ∀ value, motive (number value)) (string : ∀ value, motive (string value))
    (array : ∀ items, (∀ item ∈ items, motive item) → motive (array items))
    (object : ∀ members, (∀ member ∈ members, motive member.2) → motive (object members))
    (value : Json) : motive value :=
  Json.rec (motive_1 := motive) (motive_2 := fun items => ∀ item ∈ items, motive item)
    (motive_3 := fun members => ∀ member ∈ members, motive member.2)
    (motive_4 := fun member => motive member.2)
    null bool number string array object
    (List.forall_mem_nil _)
    (fun _ _ first rest => List.forall_mem_cons.mpr ⟨first, rest⟩)
    (List.forall_mem_nil _)
    (fun _ _ first rest => List.forall_mem_cons.mpr ⟨first, rest⟩)
    (fun _ _ value => value)
    value

/-- No object in the value repeats a name. -/
inductive DistinctKeys : Json → Prop
  | null : DistinctKeys .null
  | bool {value : Bool} : DistinctKeys (.bool value)
  | number {value : Number} : DistinctKeys (.number value)
  | string {value : String} : DistinctKeys (.string value)
  | array {items : List Json} (below : ∀ item ∈ items, DistinctKeys item) :
      DistinctKeys (.array items)
  | object {members : Members} (names : (members.map Prod.fst).Nodup)
      (below : ∀ member ∈ members, DistinctKeys member.2) : DistinctKeys (.object members)

end Json

/-- A name that is given a value keeps its place, and a new one goes to the end. -/
theorem Members.names_set (members : Members) (name : String) (value : Json) :
    (members.set name value).map Prod.fst
      = if name ∈ members.map Prod.fst then members.map Prod.fst
        else members.map Prod.fst ++ [name] := by
  induction members with
  | nil => rfl
  | cons entry rest ih =>
    obtain ⟨key, old⟩ := entry
    rw [Members.set]
    by_cases hkey : key = name
    · rw [if_pos hkey, hkey, List.map_cons, List.map_cons, if_pos List.mem_cons_self]
    · rw [if_neg hkey, List.map_cons, List.map_cons, ih]
      by_cases hmem : name ∈ rest.map Prod.fst
      · rw [if_pos hmem, if_pos (List.mem_cons_of_mem _ hmem)]
      · have hnew : name ∉ key :: rest.map Prod.fst := by
          rw [List.mem_cons, not_or]
          exact ⟨fun h => hkey h.symm, hmem⟩
        rw [if_neg hmem, if_neg hnew, List.cons_append]

/-- Giving a name a value brings in no other value. -/
theorem Members.mem_set {members : Members} {name : String} {value : Json}
    {member : String × Json} (h : member ∈ members.set name value) :
    member.2 = value ∨ member ∈ members := by
  induction members with
  | nil =>
    rw [Members.set, List.mem_singleton] at h
    exact Or.inl (congrArg Prod.snd h)
  | cons entry rest ih =>
    obtain ⟨key, old⟩ := entry
    rw [Members.set] at h
    split at h
    · rcases List.mem_cons.mp h with hfirst | hrest
      · exact Or.inl (congrArg Prod.snd hfirst)
      · exact Or.inr (List.mem_cons_of_mem _ hrest)
    · rcases List.mem_cons.mp h with hfirst | hrest
      · exact Or.inr (hfirst ▸ List.mem_cons_self)
      · exact (ih hrest).imp_right (List.mem_cons_of_mem _)

namespace Json

theorem DistinctKeys.set {done : Members} {name : String} {value : Json}
    (hdone : (Json.object done).DistinctKeys) (hvalue : value.DistinctKeys) :
    (Json.object (done.set name value)).DistinctKeys := by
  cases hdone with
  | object names below =>
    refine .object ?_ ?_
    · rw [Members.names_set]
      split
      · exact names
      · rename_i hnew
        rw [List.nodup_append]
        refine ⟨names, List.pairwise_singleton _ _, ?_⟩
        rintro other hother _ hname rfl
        rw [List.mem_singleton.mp hname] at hother
        exact hnew hother
    · intro member hmember
      rcases Members.mem_set hmember with hsame | hmem
      · rw [hsame]
        exact hvalue
      · exact below member hmem

end Json

end ByteRecord
