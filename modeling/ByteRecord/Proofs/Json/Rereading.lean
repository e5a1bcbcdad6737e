import ByteRecord.Json.Numeral
import ByteRecord.Proofs.Json.Tree
import ByteRecord.Proofs.Scalar.Words

/-!
# Values that went through text

The text of a JSON value keeps everything but two things. It does not tell a signed integer from an
unsigned one, so reading it again makes every integer unsigned that is not negative; and it has no
form for an infinity or a NaN, in whose place it has null. `Json.reread` is the value that is
left, and `Json.Finite` says that nothing is lost.
-/

namespace ByteRecord

/-- The number as its text is read again: integers without a minus sign are unsigned. -/
def Number.reread : Number → Number
  | .signed n => if n < 0 then .signed n else .unsigned n.toUInt64
  | n => n

/-- A number that is read again is alike. -/
theorem Number.reread_alike (n : Number) : n.reread.Alike n := by
  cases n with
  | signed n =>
    rw [reread]
    split
    · exact .refl _
    · rename_i hsign
      exact Or.inr ⟨n.toInt, congrArg some (toNat_toUInt64 hsign), rfl⟩
  | _ => exact .refl _

namespace Json

mutual

/-- The value as its text is read again. -/
def reread : Json → Json
  | number n => if n.isFinite then number n.reread else null
  | array items => array (rereadItems items)
  | object members => object (rereadMembers members)
  | value => value

/-- The items as their texts are read again. -/
def rereadItems : List Json → List Json
  | [] => []
  | item :: rest => reread item :: rereadItems rest

/-- The members as their texts are read again. -/
def rereadMembers : List (String × Json) → List (String × Json)
  | [] => []
  | (name, value) :: rest => (name, reread value) :: rereadMembers rest

end

/-- No number in the value is an infinity or a NaN. -/
inductive Finite : Json → Prop
  | null : Finite .null
  | bool {value : Bool} : Finite (.bool value)
  | number {n : Number} (finite : n.isFinite = true) : Finite (.number n)
  | string {s : String} : Finite (.string s)
  | array {items : List Json} (below : ∀ item ∈ items, Finite item) : Finite (.array items)
  | object {members : Members} (below : ∀ member ∈ members, Finite member.2) :
      Finite (.object members)

@[simp] theorem rereadItems_eq_map (items : List Json) : rereadItems items = items.map reread := by
  induction items with
  | nil => rfl
  | cons item rest ih => rw [rereadItems, ih, List.map_cons]

@[simp] theorem rereadMembers_eq_map (members : Members) :
    rereadMembers members = members.map fun member => (member.1, member.2.reread) := by
  induction members with
  | nil => rfl
  | cons member rest ih => rw [rereadMembers, ih, List.map_cons]

theorem reread_number_of_finite {n : Number} (h : n.isFinite = true) :
    (number n).reread = number n.reread := by
  rw [reread, if_pos h]

/-- An array that is not finite has an item that is not. -/
theorem exists_item_of_not_finite {items : List Json} (h : ¬ (array items).Finite) :
    ∃ item ∈ items, ¬ item.Finite := by
  by_contra hnone
  simp only [not_exists, not_and, not_not] at hnone
  exact h (.array hnone)

/-- An object that is not finite has a member that is not. -/
theorem exists_member_of_not_finite {members : Members} (h : ¬ (object members).Finite) :
    ∃ member ∈ members, ¬ member.2.Finite := by
  by_contra hnone
  simp only [not_exists, not_and, not_not] at hnone
  exact h (.object hnone)

/-- What is left of a number that is not finite. -/
theorem reread_number_of_not_finite {n : Number} (h : ¬ (number n).Finite) :
    (number n).reread = null := by
  rw [reread, if_neg fun hfinite => h (.number hfinite)]

end Json

/-- A member is found after reading if it was there before. -/
theorem Members.find?_rereadMembers (members : Members) (name : String) :
    Members.find? (Json.rereadMembers members) name = (members.find? name).map Json.reread := by
  induction members with
  | nil => rfl
  | cons member rest ih =>
    obtain ⟨key, value⟩ := member
    rw [Json.rereadMembers]
    by_cases hname : name = key
    · simp [hname, Members.find?]
    · have hne : (name == key) = false := beq_false_of_ne hname
      simpa [Members.find?, List.lookup_cons, hne] using ih

end ByteRecord
