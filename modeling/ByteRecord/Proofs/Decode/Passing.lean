import ByteRecord.Reader
import ByteRecord.Proofs.Success

/-!
# Bytes between two places

A successful read goes from one place to a later one over some bytes. `Reader.Passes` says which
bytes these are, and each read is described by them: it succeeds exactly if such bytes are there,
and its value depends on them alone.
-/

namespace ByteRecord

/-- Every value takes bytes. -/
theorem ScalarType.size_pos (type : ScalarType) : 0 < type.size := by cases type <;> decide

/-- So many slots hold so many values. -/
theorem ScalarType.length_ofSlots (type : ScalarType) (order : Endian) (count : Nat)
    (bytes : List UInt8) : (type.ofSlots order count bytes).length = count := by
  induction count generalizing bytes with
  | zero => rfl
  | succ count ih => rw [ofSlots, List.length_cons, ih]

/-- Slots are read from their own bytes, whatever follows. -/
theorem ScalarType.ofSlots_take (type : ScalarType) (order : Endian) (count : Nat)
    (bytes : List UInt8) :
    type.ofSlots order count (bytes.take (count * type.size)) = type.ofSlots order count bytes := by
  induction count generalizing bytes with
  | zero => rfl
  | succ count ih =>
    have hfirst : (bytes.take ((count + 1) * type.size)).take type.size
        = bytes.take type.size := by
      rw [List.take_take, Nat.succ_mul, Nat.min_eq_left (Nat.le_add_left _ _)]
    have hrest : (bytes.take ((count + 1) * type.size)).drop type.size
        = (bytes.drop type.size).take (count * type.size) := by
      rw [List.drop_take, Nat.succ_mul, Nat.add_sub_cancel]
    rw [ofSlots, ofSlots, hfirst, hrest, ih]

namespace Reader

/-- The bytes stand between the two places. -/
structure Passes (r : Reader) (bytes : List UInt8) (next : Reader) : Prop where
  /-- The bytes come first, and what follows them remains. -/
  rest : r.rest = bytes ++ next.rest
  /-- The offset counts the bytes that are passed. -/
  offset : next.offset = r.offset + bytes.length

variable {r mid next : Reader} {bytes more : List UInt8}

/-- Nothing stands between a place and itself. -/
theorem passes_nil (r : Reader) : r.Passes [] r := ⟨rfl, rfl⟩

/-- From the start of some bytes, their front is passed. -/
theorem passes_ofBytes (bytes suffix : List UInt8) :
    ((ofBytes (bytes ++ suffix)).advance 0).Passes bytes ⟨bytes.length, suffix⟩ :=
  ⟨rfl, (Nat.zero_add _).symm⟩

/-- Behind other bytes, what comes next is passed. -/
theorem passes_advance_ofBytes (before bytes behind : List UInt8) :
    ((ofBytes (before ++ bytes ++ behind)).advance before.length).Passes bytes
      ⟨before.length + bytes.length, behind⟩ := by
  refine ⟨?_, congrArg (· + bytes.length) (Nat.zero_add _).symm⟩
  rw [advance, ofBytes, List.append_assoc, List.drop_left]

/-- What is passed in two steps is passed in one. -/
theorem Passes.append (first : r.Passes bytes mid) (second : mid.Passes more next) :
    r.Passes (bytes ++ more) next := by
  refine ⟨?_, ?_⟩
  · rw [first.rest, second.rest, List.append_assoc]
  · rw [second.offset, first.offset, List.length_append, Nat.add_assoc]

/-- What is passed in one step can be passed in two. -/
theorem Passes.split (h : r.Passes (bytes ++ more) next) :
    ∃ mid, r.Passes bytes mid ∧ mid.Passes more next := by
  refine ⟨⟨r.offset + bytes.length, more ++ next.rest⟩, ⟨?_, rfl⟩, ⟨rfl, ?_⟩⟩
  · rw [h.rest, List.append_assoc]
  · rw [h.offset, List.length_append, Nat.add_assoc]

/-- The bytes that are passed were there. -/
theorem Passes.length_le (h : r.Passes bytes next) : bytes.length ≤ r.remaining := by
  rw [remaining, h.rest, List.length_append]
  exact Nat.le_add_right _ _

/-- What is passed and what remains behind it make up what remained. -/
theorem Passes.remaining (h : r.Passes bytes next) :
    r.remaining = bytes.length + next.remaining := by
  rw [Reader.remaining, h.rest, List.length_append, Reader.remaining]

/-- The place behind some bytes is found by counting them. -/
theorem Passes.eq_advance (h : r.Passes bytes next) : next = r.advance bytes.length := by
  obtain ⟨offset, rest⟩ := next
  obtain ⟨hrest, hoffset⟩ := h
  simp only [advance] at hoffset hrest ⊢
  rw [hoffset, hrest, List.drop_left]

/-- The bytes that are passed are the first ones that remained. -/
theorem Passes.eq_take (h : r.Passes bytes next) : bytes = r.rest.take bytes.length := by
  rw [h.rest, List.take_left]

/-- So many bytes can be passed if they are there. -/
theorem passes_advance {count : Nat} (h : count ≤ r.remaining) :
    r.Passes (r.rest.take count) (r.advance count) := by
  have hlen : (r.rest.take count).length = count := by
    rw [List.length_take]
    exact Nat.min_eq_left h
  exact ⟨(List.take_append_drop count r.rest).symm, by rw [hlen, advance]⟩

/-- The next bytes can be taken exactly if they are there. -/
theorem take_eq_ok_iff {access : Access} {count : Nat} :
    r.take access count = .ok (bytes, next) ↔ r.Passes bytes next ∧ bytes.length = count := by
  unfold take
  constructor
  · intro h
    split at h
    · rename_i hle
      cases h
      refine ⟨passes_advance hle, ?_⟩
      rw [List.length_take]
      exact Nat.min_eq_left hle
    · cases h
  · rintro ⟨h, rfl⟩
    rw [if_pos h.length_le, ← h.eq_take, ← h.eq_advance]

/-- Bytes can be skipped exactly if they are there. -/
theorem skip_eq_ok_iff {count : Nat} :
    r.skip count = .ok next ↔ ∃ bytes, r.Passes bytes next ∧ bytes.length = count := by
  rw [skip, map_eq_ok_iff]
  constructor
  · rintro ⟨⟨bytes, mid⟩, htake, rfl⟩
    exact ⟨bytes, take_eq_ok_iff.mp htake⟩
  · rintro ⟨bytes, h⟩
    exact ⟨(bytes, next), take_eq_ok_iff.mpr h, rfl⟩

/-- A scalar is read from as many bytes as its type takes. -/
theorem scalar_eq_ok_iff {type : ScalarType} {order : Endian} {value : Scalar} :
    r.scalar type order = .ok (value, next) ↔
      ∃ bytes, r.Passes bytes next ∧ bytes.length = type.size
        ∧ type.ofOctets order bytes = value := by
  rw [scalar, bind_eq_ok_iff]
  constructor
  · rintro ⟨⟨bytes, mid⟩, htake, h⟩
    cases h
    obtain ⟨hpass, hlen⟩ := take_eq_ok_iff.mp htake
    exact ⟨bytes, hpass, hlen, rfl⟩
  · rintro ⟨bytes, hpass, hlen, rfl⟩
    exact ⟨(bytes, next), take_eq_ok_iff.mpr ⟨hpass, hlen⟩, rfl⟩

theorem fixedText_eq_ok_iff {count : Nat} {text : List UInt8} :
    r.fixedText count = .ok (text, next) ↔ r.Passes text next ∧ text.length = count :=
  take_eq_ok_iff

/-- No zero byte stands before the first one. -/
theorem zero_notMem_untilZero (bytes : List UInt8) : 0 ∉ untilZero bytes := by
  intro h
  have hall := List.all_eq_true.mp (List.all_takeWhile (p := (· != 0)) (l := bytes)) 0 h
  cases hall

/-- Either there is no zero byte, or one follows the bytes before it. -/
theorem untilZero_cases (bytes : List UInt8) :
    (0 ∉ bytes ∧ untilZero bytes = bytes) ∨ ∃ behind, bytes = untilZero bytes ++ 0 :: behind := by
  induction bytes with
  | nil => exact Or.inl ⟨List.not_mem_nil, rfl⟩
  | cons byte rest ih =>
    by_cases h : byte = 0
    · right
      exact ⟨rest, by simp [untilZero, h]⟩
    · have hne : (byte != 0) = true := bne_iff_ne.mpr h
      have hstep : untilZero (byte :: rest) = byte :: untilZero rest := by
        simp only [untilZero, List.takeWhile_cons, hne, if_true]
      rcases ih with ⟨hfree, hself⟩ | ⟨behind, hbehind⟩
      · left
        refine ⟨?_, by rw [hstep, hself]⟩
        rw [List.mem_cons]
        rintro (h0 | h0)
        · exact h h0.symm
        · exact hfree h0
      · right
        refine ⟨behind, ?_⟩
        rw [hstep, List.cons_append, ← hbehind]

/-- Bytes without a zero byte are their own text. -/
theorem untilZero_eq_self {text : List UInt8} (h : 0 ∉ text) : untilZero text = text := by
  rcases untilZero_cases text with ⟨-, hself⟩ | ⟨behind, hbehind⟩
  · exact hself
  · rw [hbehind] at h
    exact absurd (List.mem_append_right _ List.mem_cons_self) h

/-- A text ends at the zero byte behind it, whatever follows. -/
theorem untilZero_append_zero {text : List UInt8} (h : 0 ∉ text) (behind : List UInt8) :
    untilZero (text ++ 0 :: behind) = text := by
  unfold untilZero
  rw [List.takeWhile_append_of_pos]
  · simp
  · intro byte hbyte
    rw [bne_iff_ne]
    rintro rfl
    exact h hbyte

/-- Without a width a text is read together with the zero byte that ends it. -/
theorem terminatedText_zero_eq_ok_iff {text : List UInt8} :
    r.terminatedText 0 = .ok (text, next) ↔ r.Passes (text ++ [0]) next ∧ 0 ∉ text := by
  unfold terminatedText
  rw [if_pos rfl]
  dsimp only
  constructor
  · intro h
    split at h
    · rename_i hlt
      cases h
      rcases untilZero_cases r.rest with ⟨-, hself⟩ | ⟨behind, hbehind⟩
      · rw [hself] at hlt
        exact absurd hlt (Nat.lt_irrefl _)
      · have htaken : r.rest.take ((untilZero r.rest).length + 1) = untilZero r.rest ++ [0] := by
          have hsplit : r.rest = (untilZero r.rest ++ [0]) ++ behind := by
            rw [List.append_assoc, List.singleton_append, ← hbehind]
          have hlen : (untilZero r.rest ++ [0]).length = (untilZero r.rest).length + 1 := by simp
          rw [← hlen]
          exact (congrArg (List.take _) hsplit).trans List.take_left
        have hpass := passes_advance (r := r) hlt
        rw [htaken] at hpass
        exact ⟨hpass, zero_notMem_untilZero _⟩
    · cases h
  · rintro ⟨hpass, hzero⟩
    have htext : untilZero r.rest = text := by
      rw [hpass.rest, List.append_assoc]
      exact untilZero_append_zero hzero _
    have hlen := hpass.length_le
    rw [List.length_append, List.length_singleton] at hlen
    rw [htext, if_pos (by omega), hpass.eq_advance, List.length_append, List.length_singleton]

/-- In a slot of a known width the whole slot is read, and the text ends at its first zero byte. -/
theorem terminatedText_eq_ok_iff {width : Nat} {text : List UInt8} (h : width ≠ 0) :
    r.terminatedText width = .ok (text, next) ↔
      ∃ slot, r.Passes slot next ∧ slot.length = width ∧ untilZero slot = text := by
  rw [terminatedText, if_neg h, bind_eq_ok_iff]
  constructor
  · rintro ⟨⟨slot, mid⟩, htake, h⟩
    cases h
    obtain ⟨hpass, hlen⟩ := take_eq_ok_iff.mp htake
    exact ⟨slot, hpass, hlen, rfl⟩
  · rintro ⟨slot, hpass, hlen, rfl⟩
    exact ⟨(slot, next), take_eq_ok_iff.mpr ⟨hpass, hlen⟩, rfl⟩

/-- Scalars in a row are read from as many bytes as they take together. -/
theorem scalars_eq_ok_iff {type : ScalarType} {order : Endian} {count : Nat}
    {values : List Scalar} :
    r.scalars type order count = .ok (values, next) ↔
      ∃ bytes, r.Passes bytes next ∧ bytes.length = count * type.size
        ∧ type.ofSlots order count bytes = values := by
  unfold scalars
  have hsize := type.size_pos
  constructor
  · intro h
    split at h
    · rename_i hle
      cases h
      have hroom : count * type.size ≤ r.remaining := (Nat.le_div_iff_mul_le hsize).mp hle
      have hpass := passes_advance hroom
      refine ⟨_, hpass, ?_, ?_⟩
      · rw [List.length_take]
        exact Nat.min_eq_left hroom
      · exact type.ofSlots_take order count r.rest
    · cases h
  · rintro ⟨bytes, hpass, hlen, rfl⟩
    have hroom : count ≤ r.remaining / type.size :=
      (Nat.le_div_iff_mul_le hsize).mpr (hlen ▸ hpass.length_le)
    rw [if_pos hroom, ← hlen, ← hpass.eq_advance, hpass.rest,
      ← type.ofSlots_take order count (bytes ++ next.rest), ← hlen, List.take_left]

/-- Scalars in a row are missed where there are fewer bytes than they take together. -/
theorem scalars_eq_error {type : ScalarType} {order : Endian} {count : Nat}
    (h : r.remaining < count * type.size) :
    r.scalars type order count = .error (.arrayPastEnd count r.offset r.size) := by
  have hdivided : ¬ count ≤ r.remaining / type.size := by
    rw [Nat.le_div_iff_mul_le type.size_pos]
    exact Nat.not_le_of_lt h
  rw [scalars, if_neg hdivided]

/-- Where the read succeeds it goes on over bytes that are there. -/
def GoesOn {α : Type} (read : Reader → Except BoundsError (α × Reader)) : Prop :=
  ∀ r value next, read r = .ok (value, next) → ∃ bytes, r.Passes bytes next

theorem goesOn_skip {α : Type} (value : α) (count : Nat) :
    GoesOn fun r => (r.skip count).map fun next => (value, next) := by
  intro r other next h
  obtain ⟨behind, hskip, hpair⟩ := map_eq_ok_iff.mp h
  cases hpair
  obtain ⟨bytes, hpass, -⟩ := skip_eq_ok_iff.mp hskip
  exact ⟨bytes, hpass⟩

theorem goesOn_scalar (type : ScalarType) (order : Endian) : GoesOn (·.scalar type order) := by
  intro r value next h
  obtain ⟨bytes, hpass, -⟩ := scalar_eq_ok_iff.mp h
  exact ⟨bytes, hpass⟩

theorem goesOn_fixedText (count : Nat) : GoesOn (·.fixedText count) := by
  intro r text next h
  exact ⟨text, (fixedText_eq_ok_iff.mp h).1⟩

theorem goesOn_terminatedText (width : Nat) : GoesOn (·.terminatedText width) := by
  intro r text next h
  by_cases hwidth : width = 0
  · subst hwidth
    exact ⟨text ++ [0], (terminatedText_zero_eq_ok_iff.mp h).1⟩
  · obtain ⟨slot, hpass, -⟩ := (terminatedText_eq_ok_iff hwidth).mp h
    exact ⟨slot, hpass⟩

theorem goesOn_scalars (type : ScalarType) (order : Endian) (count : Nat) :
    GoesOn (·.scalars type order count) := by
  intro r values next h
  obtain ⟨bytes, hpass, -⟩ := scalars_eq_ok_iff.mp h
  exact ⟨bytes, hpass⟩

end Reader

end ByteRecord
