import ByteRecord.Encode.Basic
import ByteRecord.Proofs.Cursor.Writing
import ByteRecord.Schema.Compile

/-!
# Whether growing ends

A buffer grows by doubling a 64-bit word until the word reaches the size that is needed. Every doubling
shifts the word by one place, so behind the 64th it is zero and stays zero: a size is reached by one
of the first 64 words or never. A size up to two to the 63 is always reached. Of the sizes beyond it,
which an address has room for and which a slot may ask for, those are reached that lie below a
doubling that has not wrapped; for the others doubling does not end.
-/

namespace ByteRecord.Cursor

variable {needed capacity last : UInt64}

/-- The doubling loop runs from a capacity to the one where it ends. If it does not end, there is no
such capacity. -/
inductive Grows (needed : UInt64) : UInt64 → UInt64 → Prop
  /-- The capacity is large enough. -/
  | stop {capacity : UInt64} (enough : needed ≤ capacity) : Grows needed capacity capacity
  /-- The capacity is too small, and the loop goes on with twice as much. -/
  | double {capacity last : UInt64} (small : ¬ needed ≤ capacity)
      (rest : Grows needed (capacity * 2) last) : Grows needed capacity last

/-- The word behind so many doublings. -/
def doubling (capacity : Nat) (doublings : Nat) : Nat := capacity * 2 ^ doublings % wordCount

theorem doubling_succ (capacity doublings : Nat) :
    doubling (capacity * 2 % wordCount) doublings = doubling capacity (doublings + 1) := by
  rw [doubling, doubling, Nat.mod_mul_mod, Nat.mul_assoc, pow_succ']

theorem doubling_mul_two (capacity : UInt64) (doublings : Nat) :
    doubling (capacity * 2).toNat doublings = doubling capacity.toNat (doublings + 1) := by
  rw [← doubling_succ, UInt64.toNat_mul]
  rfl

theorem doubling_zero (capacity : UInt64) : doubling capacity.toNat 0 = capacity.toNat := by
  rw [doubling, pow_zero, Nat.mul_one]
  exact Nat.mod_eq_of_lt capacity.toNat_lt

/-- Behind 64 doublings nothing is left. -/
theorem doubling_eq_zero (capacity : Nat) {doublings : Nat} (h : 64 ≤ doublings) :
    doubling capacity doublings = 0 := by
  obtain ⟨more, rfl⟩ := Nat.exists_eq_add_of_le h
  have hword : capacity * 2 ^ (64 + more) = wordCount * (capacity * 2 ^ more) := by
    rw [pow_add, Nat.mul_left_comm]
    rfl
  rw [doubling, hword]
  exact Nat.mul_mod_right _ _

/-- The loop ends at one of the doublings, and where it ends there is enough. -/
theorem Grows.exists_doubling (h : Grows needed capacity last) :
    needed.toNat ≤ last.toNat ∧ ∃ doublings, last.toNat = doubling capacity.toNat doublings := by
  induction h with
  | stop enough => exact ⟨UInt64.le_iff_toNat_le.mp enough, 0, (doubling_zero _).symm⟩
  | double small rest ih =>
    obtain ⟨henough, doublings, hlast⟩ := ih
    exact ⟨henough, doublings + 1, hlast.trans (doubling_mul_two _ _)⟩

/-- The loop ends if one of the doublings is enough. -/
theorem exists_grows {doublings : Nat} (h : needed.toNat ≤ doubling capacity.toNat doublings) :
    ∃ last, Grows needed capacity last := by
  induction doublings generalizing capacity with
  | zero =>
    rw [doubling_zero] at h
    exact ⟨capacity, .stop (UInt64.le_iff_toNat_le.mpr h)⟩
  | succ doublings ih =>
    by_cases henough : needed ≤ capacity
    · exact ⟨capacity, .stop henough⟩
    · rw [← doubling_mul_two] at h
      obtain ⟨last, hlast⟩ := ih h
      exact ⟨last, .double henough hlast⟩

/-- The loop ends exactly if one of the first 64 doublings is enough. -/
theorem exists_grows_iff :
    (∃ last, Grows needed capacity last) ↔
      ∃ doublings < 64, needed.toNat ≤ doubling capacity.toNat doublings := by
  constructor
  · rintro ⟨last, hlast⟩
    obtain ⟨henough, doublings, hdoubling⟩ := hlast.exists_doubling
    rw [hdoubling] at henough
    by_cases hmany : doublings < 64
    · exact ⟨doublings, hmany, henough⟩
    · -- Behind the 64th doubling only a size of zero is reached, for which none is needed.
      rw [doubling_eq_zero _ (Nat.le_of_not_lt hmany)] at henough
      exact ⟨0, by decide, by omega⟩
  · rintro ⟨doublings, -, henough⟩
    exact exists_grows henough

/-- The loop ends at one capacity only. -/
theorem Grows.unique {other : UInt64} (h : Grows needed capacity last)
    (hother : Grows needed capacity other) : last = other := by
  induction h with
  | stop enough =>
    cases hother with
    | stop => rfl
    | double small => exact absurd enough small
  | double small rest ih =>
    cases hother with
    | stop enough => exact absurd enough small
    | double _ restOther => exact ih restOther

/-- Doubling a limited number of times ends where the loop ends. -/
theorem grows_of_doubleUntil {doublings : Nat}
    (h : doubleUntil needed doublings capacity = some last) : Grows needed capacity last := by
  induction doublings generalizing capacity with
  | zero =>
    rw [doubleUntil] at h
    split at h
    · rename_i henough
      injection h with h
      exact h ▸ .stop henough
    · cases h
  | succ doublings ih =>
    rw [doubleUntil] at h
    split at h
    · rename_i henough
      injection h with h
      exact h ▸ .stop henough
    · rename_i hsmall
      exact .double hsmall (ih h)

/-- If a limited number of doublings does not end the loop, none of them is enough. -/
theorem not_le_doubling_of_doubleUntil {doublings : Nat}
    (h : doubleUntil needed doublings capacity = none) :
    ∀ k ≤ doublings, ¬ needed.toNat ≤ doubling capacity.toNat k := by
  induction doublings generalizing capacity with
  | zero =>
    rw [doubleUntil] at h
    split at h
    · cases h
    · rename_i hsmall
      intro k hk
      rw [Nat.le_zero.mp hk, doubling_zero]
      exact mt UInt64.le_iff_toNat_le.mpr hsmall
  | succ doublings ih =>
    rw [doubleUntil] at h
    split at h
    · cases h
    · rename_i hsmall
      intro k hk
      cases k with
      | zero =>
        rw [doubling_zero]
        exact mt UInt64.le_iff_toNat_le.mpr hsmall
      | succ k =>
        rw [← doubling_mul_two]
        exact ih h k (Nat.le_of_succ_le_succ hk)

/-- The 64 doublings of a buffer that grows find where the loop ends, and tell whether it does. -/
theorem doubleUntil_eq_some_iff :
    doubleUntil needed 64 capacity = some last ↔ Grows needed capacity last := by
  refine ⟨grows_of_doubleUntil, fun h => ?_⟩
  cases hfound : doubleUntil needed 64 capacity with
  | some found => rw [(grows_of_doubleUntil hfound).unique h]
  | none =>
    obtain ⟨doublings, hbound, henough⟩ := exists_grows_iff.mp ⟨last, h⟩
    exact absurd henough (not_le_doubling_of_doubleUntil hfound doublings (Nat.le_of_lt hbound))

/-- Sizes up to two to the 63 are reached from every capacity but zero. -/
theorem exists_grows_of_le (small : needed.toNat ≤ signedBound) (start : 0 < capacity.toNat) :
    ∃ last, Grows needed capacity last := by
  have hbound : needed.toNat ≤ 1 * 2 ^ 64 := Nat.le_trans small (by decide)
  have hreach : needed.toNat ≤ capacity.toNat * 2 ^ 64 :=
    Nat.le_trans hbound (Nat.mul_le_mul_right _ start)
  obtain ⟨last, hlast, -⟩ := doubleUntil_eq small start hreach
  exact ⟨last, grows_of_doubleUntil hlast⟩

/-- From a power of two no size beyond two to the 63 is reached, since every doubling of it is a power
of two or zero. -/
theorem doubling_le_of_eq_two_pow {size place : Nat} (power : size = 2 ^ place) (doublings : Nat) :
    doubling size doublings ≤ signedBound := by
  subst power
  rw [doubling, ← pow_add]
  by_cases hplace : place + doublings < 64
  · have hle : 2 ^ (place + doublings) ≤ 2 ^ 63 := Nat.pow_le_pow_right (by decide) (by omega)
    exact Nat.le_trans (Nat.mod_le _ _) hle
  · have hzero := doubling_eq_zero 1 (Nat.le_of_not_lt hplace)
    rw [doubling, Nat.one_mul] at hzero
    rw [hzero]
    exact Nat.zero_le _

variable {c : Cursor} {count : Nat}

/-- Growing a buffer ends exactly if one of the first 64 doublings of its capacity, or of the least
one, is as large as the size that is needed; then there is room for that size, and otherwise doubling
goes on for ever. A size up to two to the 63 never makes it do so; from a power of two, every size
beyond does. -/
theorem growing_ends_iff (growable : c.growable = true) (word : c.capacity < wordCount)
    (addressable : c.position + count < wordCount) :
    let needed := UInt64.ofNat (c.position + count)
    let start := UInt64.ofNat (max c.capacity leastCapacity)
    ((∃ last, Grows needed start last) ↔
        ∃ doublings < 64,
          c.position + count ≤ doubling (max c.capacity leastCapacity) doublings)
      ∧ (∀ last, Grows needed start last → ∃ roomy, (reserve count).on c = (.ok (), roomy)
          ∧ c.position + count ≤ roomy.capacity
          ∧ (c.capacity < c.position + count → roomy.capacity = last.toNat))
      ∧ ((¬ ∃ last, Grows needed start last) →
          (reserve count).on c = (.error (.unreachable (c.position + count)), c))
      ∧ (c.position + count ≤ signedBound → ∃ last, Grows needed start last)
      ∧ ((∃ place, max c.capacity leastCapacity = 2 ^ place) → signedBound < c.position + count →
          ¬ ∃ last, Grows needed start last) := by
  intro needed start
  have hneeded : needed.toNat = c.position + count := UInt64.toNat_ofNat_of_lt' addressable
  have hstart : start.toNat = max c.capacity leastCapacity :=
    UInt64.toNat_ofNat_of_lt' (Nat.max_lt.mpr ⟨word, by decide⟩)
  have hleast : 0 < start.toNat := by
    rw [hstart]
    exact Nat.lt_of_lt_of_le (by decide) (Nat.le_max_right _ leastCapacity)
  have hends : (∃ last, Grows needed start last) ↔ ∃ doublings < 64,
      c.position + count ≤ doubling (max c.capacity leastCapacity) doublings := by
    rw [exists_grows_iff, hneeded, hstart]
  have hgrown : grownCapacity? c.capacity (c.position + count) = doubleUntil needed 64 start := rfl
  refine ⟨hends, fun last hlast => ?_, fun hnever => ?_, fun small => ?_, fun power large => ?_⟩
  · have henough : c.position + count ≤ last.toNat := hneeded ▸ hlast.exists_doubling.1
    rw [on_reserve, if_neg (Nat.not_le.mpr addressable)]
    by_cases hfits : c.position + count ≤ c.capacity
    · exact ⟨c, if_pos hfits, hfits, fun hsmall => absurd hfits (Nat.not_le.mpr hsmall)⟩
    · rw [if_neg hfits, growable, hgrown, doubleUntil_eq_some_iff.mpr hlast]
      have hcapacity := c.capacity_extend last.toNat
      exact ⟨_, rfl, by omega, fun _ => by omega⟩
  · have hsmall : ¬ c.position + count ≤ c.capacity := fun hfits =>
      hnever ⟨start, .stop (UInt64.le_iff_toNat_le.mpr (by omega))⟩
    have hnone : doubleUntil needed 64 start = none :=
      Option.eq_none_iff_forall_ne_some.mpr fun last hlast =>
        hnever ⟨last, doubleUntil_eq_some_iff.mp hlast⟩
    rw [on_reserve, if_neg (Nat.not_le.mpr addressable), if_neg hsmall, growable, hgrown, hnone]
    rfl
  · exact exists_grows_of_le (hneeded ▸ small) hleast
  · obtain ⟨place, hplace⟩ := power
    intro hgrows
    obtain ⟨doublings, -, henough⟩ := hends.mp hgrows
    have hbound := doubling_le_of_eq_two_pow hplace doublings
    omega

/-- An empty buffer grows to make room for forty bytes, and does not stop growing for one byte more than
two to the 63. -/
theorem growing_ends_empty :
    (∃ roomy, (reserve 40).on (empty 0 .big true) = (.ok (), roomy) ∧ 40 ≤ roomy.capacity)
      ∧ (reserve 9223372036854775809).on (empty 0 .big true)
        = (.error (.unreachable 9223372036854775809), empty 0 .big true) := by
  obtain ⟨-, hroom, -, hsmall, -⟩ :=
    @growing_ends_iff (empty 0 .big true) 40 rfl (by decide) (by decide)
  obtain ⟨-, -, hnever, -, hlarge⟩ :=
    @growing_ends_iff (empty 0 .big true) 9223372036854775809 rfl (by decide) (by decide)
  refine ⟨?_, hnever (hlarge ⟨5, rfl⟩ (by decide))⟩
  obtain ⟨last, hlast⟩ := hsmall (by decide)
  obtain ⟨roomy, hroomy, hcapacity, -⟩ := hroom last hlast
  exact ⟨roomy, hroomy, hcapacity⟩

/-- Describes a text of one byte more than two to the 63. -/
def vastDescription : Json := .string "string:9223372036854775809"

/-- The schema of that description. -/
def vastNode : Node := .leaf (.string ⟨9223372036854775809, none⟩)

/-- The schema of a text compiles whose size is an address, but that no buffer ever grows to: encoding
even the empty text in it does not end. -/
theorem growing_never_ends :
    Node.compile vastDescription = .ok vastNode
      ∧ (empty 0 .big true).position + 9223372036854775809 < wordCount
      ∧ (¬ ∃ last, Grows 9223372036854775809 32 last)
      ∧ (vastNode.encode (.string "") 0 .big).1
        = .error (.capacity (.unreachable 9223372036854775809)) := by
  refine ⟨rfl, by decide, ?_, rfl⟩
  rw [exists_grows_iff]
  decide +kernel

end ByteRecord.Cursor
