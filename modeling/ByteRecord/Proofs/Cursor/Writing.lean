import ByteRecord.Cursor.Basic
import ByteRecord.Proofs.Success
import Mathlib.Algebra.Ring.Nat

/-!
# Writing at the position of a cursor

A cursor that is well formed has its position within its contents, its contents within its buffer
and nothing but zeros behind them. A write to it finds room exactly if the buffer is large enough or
may grow, and then replaces contents at the position and nothing else: how large the buffer is and
what it holds behind the contents does not matter.
-/

namespace ByteRecord

/-- Some bytes with those from a position on replaced, and extended where the others reach beyond
their end. -/
def overwrite (bytes : List UInt8) (position : Nat) (content : List UInt8) : List UInt8 :=
  bytes.take position ++ content ++ bytes.drop (position + content.length)

theorem length_overwrite {bytes content : List UInt8} {position : Nat}
    (h : position ≤ bytes.length) :
    (overwrite bytes position content).length = max bytes.length (position + content.length) := by
  simp only [overwrite, List.length_append, List.length_take, List.length_drop]
  omega

theorem overwrite_nil (bytes : List UInt8) (position : Nat) :
    overwrite bytes position [] = bytes := by
  rw [overwrite, List.length_nil, Nat.add_zero, List.append_nil, List.take_append_drop]

/-- What stands before the position stays. -/
theorem take_overwrite {bytes content : List UInt8} {position : Nat}
    (h : position ≤ bytes.length) :
    (overwrite bytes position content).take position = bytes.take position := by
  have hlength : (bytes.take position).length = position := List.length_take_of_le h
  rw [overwrite, List.append_assoc, List.take_left' hlength]

/-- What stands behind the new bytes stays. -/
theorem drop_overwrite {bytes content : List UInt8} {position : Nat}
    (h : position ≤ bytes.length) :
    (overwrite bytes position content).drop (position + content.length)
      = bytes.drop (position + content.length) := by
  have hlength : (bytes.take position ++ content).length = position + content.length := by
    rw [List.length_append, List.length_take_of_le h]
  rw [overwrite, List.drop_left' hlength]

/-- Bytes that are put down one behind the other are put down together. -/
theorem overwrite_overwrite {bytes first second : List UInt8} {position : Nat}
    (h : position ≤ bytes.length) :
    overwrite (overwrite bytes position first) (position + first.length) second
      = overwrite bytes position (first ++ second) := by
  have hlength : (bytes.take position ++ first).length = position + first.length := by
    rw [List.length_append, List.length_take_of_le h]
  have hfront : (overwrite bytes position first).take (position + first.length)
      = bytes.take position ++ first := by
    rw [overwrite, List.take_left' hlength]
  have hbehind : (overwrite bytes position first).drop
      (position + first.length + second.length)
      = bytes.drop (position + (first ++ second).length) := by
    rw [← List.drop_drop, drop_overwrite h, List.drop_drop, List.length_append, Nat.add_assoc]
  rw [overwrite, hfront, hbehind, overwrite, List.append_assoc (bytes.take position)]

namespace Cursor

/-- The indices of a cursor are in order. -/
structure Within (c : Cursor) : Prop where
  /-- The position is within the contents or at their end. -/
  position_le : c.position ≤ c.length
  /-- The contents are within the buffer. -/
  length_le : c.length ≤ c.capacity

/-- The invariant of a cursor. -/
structure WellFormed (c : Cursor) : Prop extends Within c where
  /-- The capacity is a 64-bit word. -/
  capacity_lt : c.capacity < wordCount
  /-- The spare bytes are zero. -/
  spare : ∀ byte ∈ c.buffer.drop c.length, byte = 0

/-- A capacity that is doubled until it reaches the size that is needed. -/
def doubled (needed capacity : Nat) : Nat :=
  if capacity = 0 ∨ needed ≤ capacity then capacity else doubled needed (capacity * 2)
termination_by needed - capacity
decreasing_by omega

/-- The capacity of a buffer behind a write that needs the given size. -/
def grown (needed capacity : Nat) : Nat :=
  if needed ≤ capacity then capacity else doubled needed (max capacity leastCapacity)

variable {c roomy next : Cursor} {w : Write}

theorem le_doubled {needed capacity : Nat} (h : 0 < capacity) :
    needed ≤ doubled needed capacity ∧ capacity ≤ doubled needed capacity := by
  induction capacity using doubled.induct needed with
  | case1 capacity hstop =>
    rw [doubled, if_pos hstop]
    omega
  | case2 capacity hgo ih =>
    rw [doubled, if_neg hgo]
    have hlater := ih (by omega)
    omega

theorem le_grown (needed capacity : Nat) :
    needed ≤ grown needed capacity ∧ capacity ≤ grown needed capacity := by
  rw [grown]
  split
  · rename_i h
    exact ⟨h, Nat.le_refl _⟩
  · have hleast : 32 ≤ max capacity leastCapacity := Nat.le_max_right _ _
    have h : needed ≤ doubled needed (max capacity leastCapacity)
        ∧ max capacity leastCapacity ≤ doubled needed (max capacity leastCapacity) :=
      le_doubled (by omega)
    exact ⟨h.1, Nat.le_trans (Nat.le_max_left _ _) h.2⟩

/-- Doubling a word reaches every size up to two to the 63 as a number would. -/
theorem doubleUntil_eq {needed : UInt64} (hneeded : needed.toNat ≤ signedBound) {doublings : Nat}
    {capacity : UInt64} (hpos : 0 < capacity.toNat)
    (hreach : needed.toNat ≤ capacity.toNat * 2 ^ doublings) :
    ∃ grown, doubleUntil needed doublings capacity = some grown
      ∧ grown.toNat = doubled needed.toNat capacity.toNat := by
  induction doublings generalizing capacity with
  | zero =>
    rw [pow_zero, Nat.mul_one] at hreach
    refine ⟨capacity, if_pos (UInt64.le_iff_toNat_le.mpr hreach), ?_⟩
    rw [doubled, if_pos (Or.inr hreach)]
  | succ doublings ih =>
    rw [doubleUntil, doubled]
    by_cases hle : needed.toNat ≤ capacity.toNat
    · rw [if_pos (UInt64.le_iff_toNat_le.mpr hle), if_pos (Or.inr hle)]
      exact ⟨capacity, rfl, rfl⟩
    · have hdouble : (capacity * 2).toNat = capacity.toNat * 2 := by
        rw [UInt64.toNat_mul]
        refine Nat.mod_eq_of_lt ?_
        rw [signedBound] at hneeded
        change capacity.toNat * 2 < _
        omega
      rw [if_neg (mt UInt64.le_iff_toNat_le.mp hle), if_neg (by omega), ← hdouble]
      refine ih (by omega) ?_
      rw [hdouble, Nat.mul_assoc, Nat.mul_comm 2, ← pow_succ]
      exact hreach

/-- Doubling ends at a size that is large enough. -/
theorem le_of_doubleUntil {needed capacity grown : UInt64} {doublings : Nat}
    (h : doubleUntil needed doublings capacity = some grown) : needed.toNat ≤ grown.toNat := by
  induction doublings generalizing capacity with
  | zero =>
    rw [doubleUntil] at h
    split at h
    · rename_i hle
      injection h with h
      rw [← h]
      exact UInt64.le_iff_toNat_le.mp hle
    · cases h
  | succ doublings ih =>
    rw [doubleUntil] at h
    split at h
    · rename_i hle
      injection h with h
      rw [← h]
      exact UInt64.le_iff_toNat_le.mp hle
    · exact ih h

/-- Doubling at least 32 bytes reaches every size up to two to the 63. -/
theorem grownCapacity_eq {capacity needed : Nat} (hcapacity : capacity < needed)
    (hneeded : needed ≤ signedBound) :
    ∃ word, grownCapacity? capacity needed = some word ∧ word.toNat = grown needed capacity := by
  have hword : needed < wordCount := Nat.lt_of_le_of_lt hneeded (by decide)
  have hneeded' : (UInt64.ofNat needed).toNat = needed := UInt64.toNat_ofNat_of_lt' hword
  have hstart : (UInt64.ofNat (max capacity leastCapacity)).toNat = max capacity leastCapacity :=
    UInt64.toNat_ofNat_of_lt' (Nat.max_lt.mpr ⟨Nat.lt_trans hcapacity hword, by decide⟩)
  have hleast : 32 ≤ max capacity leastCapacity := Nat.le_max_right _ _
  have hreach : needed ≤ max capacity leastCapacity * 2 ^ 64 := by
    rw [signedBound] at hneeded
    omega
  obtain ⟨word, hword, hsize⟩ : ∃ word, grownCapacity? capacity needed = some word
      ∧ word.toNat = doubled (UInt64.ofNat needed).toNat
          (UInt64.ofNat (max capacity leastCapacity)).toNat :=
    doubleUntil_eq (by rwa [hneeded']) (by rw [hstart]; omega) (by rwa [hneeded', hstart])
  rw [hneeded', hstart] at hsize
  rw [grown, if_neg (Nat.not_le.mpr hcapacity)]
  exact ⟨word, hword, hsize⟩

theorem capacity_extend (c : Cursor) (capacity : Nat) :
    (c.extend capacity).capacity = max c.capacity capacity := by
  simp only [Cursor.capacity, extend, List.length_append, List.length_replicate]
  omega

/-- Room that is made is spare zeros behind the buffer, and a buffer that may not grow has none. -/
theorem reserve_eq_ok {count : Nat} (h : (reserve count).on c = (.ok (), roomy)) :
    ∃ capacity, roomy = c.extend capacity ∧ c.position + count ≤ roomy.capacity
      ∧ (c.growable = false → roomy = c)
      ∧ (c.capacity < wordCount → roomy.capacity < wordCount) := by
  have hsame : c.extend c.capacity = c := by
    rw [extend, Nat.sub_self, List.replicate_zero, List.append_nil]
  rw [on_reserve] at h
  split at h
  · cases h
  · rename_i hword
    split at h
    · rename_i hfits
      injection h with _ h
      subst h
      exact ⟨c.capacity, hsame.symm, hfits, fun _ => rfl, id⟩
    · split at h
      · cases h
      · rename_i hgrowable
        split at h
        · rename_i capacity hcapacity
          injection h with _ h
          subst h
          have hneeded := le_of_doubleUntil hcapacity
          rw [UInt64.toNat_ofNat_of_lt' (Nat.lt_of_not_le hword)] at hneeded
          refine ⟨capacity.toNat, rfl, ?_, fun hfixed => ?_, fun h => ?_⟩
          · rw [capacity_extend]
            omega
          · rw [hfixed] at hgrowable
            exact absurd rfl hgrowable
          · rw [capacity_extend]
            exact Nat.max_lt.mpr ⟨h, capacity.toNat_lt⟩
        · cases h

/-- A write that the buffer has room for needs no more room. -/
theorem reserve_of_fits {count : Nat} (hword : c.position + count < wordCount)
    (h : c.position + count ≤ c.capacity) : (reserve count).on c = (.ok (), c) := by
  rw [on_reserve, if_neg (Nat.not_le.mpr hword), if_pos h]

/-- A buffer that may grow is doubled until the write fits. -/
theorem reserve_of_growable {count : Nat} (hgrowable : c.growable = true)
    (hcapacity : c.capacity < c.position + count) (hneeded : c.position + count ≤ signedBound) :
    (reserve count).on c = (.ok (), c.extend (grown (c.position + count) c.capacity)) := by
  obtain ⟨word, hword, hsize⟩ := grownCapacity_eq hcapacity hneeded
  rw [on_reserve, if_neg (Nat.not_le.mpr (Nat.lt_of_le_of_lt hneeded (by decide))),
    if_neg (Nat.not_le.mpr hcapacity), hgrowable, hword]
  simp [hsize]

/-- Why a buffer that may not grow refuses `count` bytes that it has no room for. -/
def refusal (count position capacity : Nat) : CapacityError :=
  if wordCount ≤ position + count then .addressSpace else .full count position capacity

/-- Spare room shows nowhere but in the capacity. -/
theorem Within.contents_extend (h : c.Within) (capacity : Nat) :
    (c.extend capacity).contents = c.contents := by
  rw [contents, Cursor.extend, List.take_append_of_le_length h.length_le, contents]

theorem Within.extend (h : c.Within) (capacity : Nat) : (c.extend capacity).Within := by
  refine ⟨h.position_le, ?_⟩
  rw [capacity_extend]
  exact Nat.le_trans h.length_le (Nat.le_max_left _ _)

theorem WellFormed.extend (h : c.WellFormed) {capacity : Nat}
    (hword : (c.extend capacity).capacity < wordCount) : (c.extend capacity).WellFormed := by
  refine ⟨h.toWithin.extend capacity, hword, ?_⟩
  rw [Cursor.extend, List.drop_append_of_le_length h.length_le]
  intro byte hbyte
  rcases List.mem_append.mp hbyte with hold | hnew
  · exact h.spare byte hold
  · exact List.eq_of_mem_replicate hnew

/-- The bytes of a write within a buffer replace those at the position. -/
theorem splice_eq_overwrite (bytes : List UInt8) (position : Nat) (w : Write) :
    splice bytes position w = overwrite bytes position w.octets := by
  rw [splice, overwrite, Write.length_octets]

theorem capacity_commit (hroom : c.position + w.size ≤ c.capacity) :
    (c.commit w).capacity = c.capacity :=
  length_splice _ _ _ hroom

/-- A write that there is room for replaces contents at the position. -/
theorem Within.commit (h : c.Within) (hroom : c.position + w.size ≤ c.capacity) :
    (c.commit w).Within ∧ (c.commit w).contents = overwrite c.contents c.position w.octets := by
  have hposition := h.position_le
  have hlength : c.length ≤ c.buffer.length := h.length_le
  have hfront : (c.buffer.take c.length).take c.position = c.buffer.take c.position := by
    rw [List.take_take, Nat.min_eq_left hposition]
  have hwritten : (c.buffer.take c.position ++ w.octets).length = c.position + w.size := by
    rw [List.length_append, List.length_take_of_le (by omega), Write.length_octets]
  have hbehind : max c.length (c.position + w.size) - (c.position + w.size)
      = c.length - (c.position + w.size) := by
    omega
  refine ⟨⟨Nat.le_max_right _ _, ?_⟩, ?_⟩
  · rw [capacity_commit hroom]
    exact Nat.max_le.mpr ⟨h.length_le, hroom⟩
  · simp only [contents, Cursor.commit]
    rw [splice_eq_overwrite, overwrite, overwrite, hfront, List.take_append,
      List.take_of_length_le (by rw [hwritten]; exact Nat.le_max_right _ _), hwritten, hbehind,
      Write.length_octets, List.drop_take]

theorem WellFormed.commit (h : c.WellFormed) (hroom : c.position + w.size ≤ c.capacity) :
    (c.commit w).WellFormed := by
  have hposition : c.position ≤ c.buffer.length := Nat.le_trans h.position_le h.length_le
  refine ⟨(h.toWithin.commit hroom).1, (capacity_commit hroom).symm ▸ h.capacity_lt, ?_⟩
  -- Behind the contents and the write nothing has changed.
  intro byte hbyte
  have hsplit : max c.length (c.position + w.size)
      = c.position + w.octets.length + (max c.length (c.position + w.size)
        - (c.position + w.octets.length)) := by
    rw [Write.length_octets]
    omega
  simp only [Cursor.commit] at hbyte
  rw [splice_eq_overwrite, hsplit, ← List.drop_drop, drop_overwrite hposition,
    List.drop_drop, ← hsplit] at hbyte
  exact h.spare byte ((List.drop_sublist_drop_left _ (Nat.le_max_left _ _)).subset hbyte)

/-- What a write has done that found room. -/
structure Wrote (before : Cursor) (content : List UInt8) (behind : Cursor) : Prop where
  /-- The indices are in order. -/
  within : behind.Within
  /-- Contents at the position have been replaced. -/
  contents_eq : behind.contents = overwrite before.contents before.position content
  /-- The position is behind them. -/
  position_eq : behind.position = before.position + content.length
  /-- The byte order is the same. -/
  order_eq : behind.order = before.order
  /-- The buffer may grow if it might before. -/
  growable_eq : behind.growable = before.growable
  /-- The buffer has not become smaller. -/
  capacity_le : before.capacity ≤ behind.capacity
  /-- A buffer that may not grow has not grown. -/
  capacity_eq : before.growable = false → behind.capacity = before.capacity

/-- A write that is carried out finds room first. -/
theorem write_eq_ok (hwrite : (write w).on c = (.ok (), next)) :
    ∃ roomy, (reserve w.size).on c = (.ok (), roomy) ∧ next = roomy.commit w := by
  rw [on_write] at hwrite
  cases hreserve : (reserve w.size).on c with
  | mk result left =>
    rw [hreserve] at hwrite
    cases result with
    | ok =>
      injection hwrite with _ hnext
      exact ⟨left, rfl, hnext.symm⟩
    | error cause => cases hwrite

theorem Within.write (h : c.Within) (hwrite : (Cursor.write w).on c = (.ok (), next)) :
    c.Wrote w.octets next := by
  obtain ⟨roomy, hroomy, rfl⟩ := write_eq_ok hwrite
  obtain ⟨capacity, rfl, hroom, hfixed, -⟩ := reserve_eq_ok hroomy
  obtain ⟨hcommitted, hwritten⟩ := (h.extend capacity).commit hroom
  have hcapacity : ((c.extend capacity).commit w).capacity = (c.extend capacity).capacity :=
    capacity_commit hroom
  rw [h.contents_extend] at hwritten
  refine ⟨hcommitted, hwritten, ?_, rfl, rfl, ?_, fun hgrowable => ?_⟩
  · rw [Write.length_octets]
    rfl
  · rw [hcapacity, capacity_extend]
    exact Nat.le_max_left _ _
  · rw [hcapacity, hfixed hgrowable]

theorem WellFormed.write (h : c.WellFormed) (hwrite : (Cursor.write w).on c = (.ok (), next)) :
    next.WellFormed := by
  obtain ⟨roomy, hroomy, rfl⟩ := write_eq_ok hwrite
  obtain ⟨capacity, rfl, hroom, -, hword⟩ := reserve_eq_ok hroomy
  exact (h.extend (hword h.capacity_lt)).commit hroom

/-- Any other write is carried out, as long as no buffer has to grow beyond two to the 63 bytes. -/
theorem exists_write (hroom : c.growable = true ∨ c.position + w.size ≤ c.capacity)
    (hword : c.position + w.size < wordCount)
    (fits : c.capacity < c.position + w.size → c.position + w.size ≤ signedBound) :
    ∃ next, (write w).on c = (.ok (), next)
      ∧ next.capacity = grown (c.position + w.size) c.capacity := by
  by_cases hthere : c.position + w.size ≤ c.capacity
  · refine ⟨c.commit w, by rw [on_write, reserve_of_fits hword hthere], ?_⟩
    rw [capacity_commit hthere, grown, if_pos hthere]
  · rw [Nat.not_le] at hthere
    have hgrowable : c.growable = true := hroom.resolve_right (Nat.not_le.mpr hthere)
    obtain ⟨hneeded, hcapacity⟩ := le_grown (c.position + w.size) c.capacity
    have hextended : (c.extend (grown (c.position + w.size) c.capacity)).capacity
        = grown (c.position + w.size) c.capacity := by
      rw [capacity_extend, Nat.max_eq_right hcapacity]
    refine ⟨(c.extend (grown (c.position + w.size) c.capacity)).commit w, ?_, ?_⟩
    · rw [on_write, reserve_of_growable hgrowable hthere (fits hthere)]
    · rw [capacity_commit (by rw [hextended]; exact hneeded), hextended]

theorem Within.length_contents (h : c.Within) : c.contents.length = c.length :=
  List.length_take_of_le h.length_le

end Cursor

end ByteRecord
