import ByteRecord.Proofs.Decode.Failing
import ByteRecord.Proofs.Decode.Mismatch

/-!
# What a decoder looks at

A read is settled by the bytes that it passes, wherever they stand and whatever follows them, and no
front of these bytes would settle it: `Local` says so. `Reader.within` is a place that is seen
among more bytes, and `Outcome.Follows` compares what is decoded at the two places. The more bytes
there are, the more can be read, so an error for want of bytes is only kept if none are added behind.
-/

namespace ByteRecord

/-- The kind of an error, whatever its details. -/
inductive ErrorKind where
  /-- A text cannot be read as JSON. -/
  | json
  /-- The schema is at fault. -/
  | schema
  /-- The record is at fault. -/
  | record
  /-- Bytes are missing. -/
  | bounds
  /-- Bytes do not fit. -/
  | capacity
  deriving DecidableEq

/-- The kind of the error. -/
def Error.kind : Error → ErrorKind
  | json _ => .json
  | schema _ => .schema
  | record _ _ => .record
  | bounds _ => .bounds
  | capacity _ => .capacity

/-- Two results are the same, or both are errors of the same kind. -/
inductive SameKind {α : Type} : Except Error α → Except Error α → Prop
  /-- The same value. -/
  | ok (a : α) : SameKind (.ok a) (.ok a)
  /-- Errors that may differ in their details. -/
  | error {cause other : Error} (kind : other.kind = cause.kind) :
      SameKind (.error cause) (.error other)

theorem SameKind.refl {α : Type} (x : Except Error α) : SameKind x x := by
  cases x with
  | ok a => exact .ok a
  | error cause => exact .error rfl

/-- What is the same as a value is this value. -/
theorem SameKind.eq_ok {α : Type} {x y : Except Error α} {a : α} (h : SameKind x y)
    (hx : x = .ok a) : y = .ok a := by
  subst hx
  cases h
  rfl

namespace Reader

/-- The place among more bytes: `before` of them stand in front of all the others, and `behind` are
added at the end. -/
def within (r : Reader) (before : Nat) (behind : List UInt8) : Reader :=
  ⟨before + r.offset, r.rest ++ behind⟩

variable {r next : Reader} {bytes : List UInt8} {before : Nat} {behind : List UInt8}

@[simp] theorem within_zero_nil (r : Reader) : r.within 0 [] = r := by
  rw [within, Nat.zero_add, List.append_nil]

@[simp] theorem rest_within : (r.within before behind).rest = r.rest ++ behind := rfl

theorem remaining_within :
    (r.within before behind).remaining = r.remaining + behind.length := by
  rw [remaining, rest_within, List.length_append, remaining]

@[simp] theorem atEnd_within_nil : (r.within before []).atEnd = r.atEnd := by
  rw [atEnd, rest_within, List.append_nil, atEnd]

/-- The bytes that are passed stand among the others too. -/
theorem Passes.within (h : r.Passes bytes next) :
    (r.within before behind).Passes bytes (next.within before behind) := by
  refine ⟨?_, ?_⟩
  · rw [rest_within, rest_within, h.rest, List.append_assoc]
  · rw [Reader.within, Reader.within, h.offset, Nat.add_assoc]

/-- If nothing is added behind, no other bytes are passed. -/
theorem Passes.of_within (h : (r.within before []).Passes bytes next) :
    ∃ mid, r.Passes bytes mid ∧ next = mid.within before [] := by
  have hrest : r.rest = bytes ++ next.rest := by
    rw [← h.rest, rest_within, List.append_nil]
  refine ⟨⟨r.offset + bytes.length, next.rest⟩, ⟨hrest, rfl⟩, ?_⟩
  have hoffset : next.offset = before + r.offset + bytes.length := h.offset
  rw [Reader.within, List.append_nil, ← Nat.add_assoc, ← hoffset]

end Reader

/-- A read is settled by the bytes that it passes: `spells` says which bytes give which value. The
bytes tell by themselves where they end, so no front of them is read on its own. -/
structure Local {α : Type} (read : Reader → Except BoundsError (α × Reader))
    (spells : List UInt8 → α → Prop) : Prop where
  /-- The value is the one that the bytes spell. -/
  eq_ok_iff (r : Reader) (value : α) (next : Reader) :
    read r = .ok (value, next) ↔ ∃ bytes, r.Passes bytes next ∧ spells bytes value
  /-- Bytes that spell a value do not go on to spell another one. -/
  delimited (bytes more : List UInt8) (value other : α) :
    spells bytes value → spells (bytes ++ more) other → more = []

namespace Local

/-- Bytes of a known number end where they have this number. -/
theorem delimited_of_length {count : Nat} {bytes more : List UInt8} (h : bytes.length = count)
    (hmore : (bytes ++ more).length = count) : more = [] := by
  rw [List.length_append] at hmore
  exact List.eq_nil_of_length_eq_zero (by omega)

theorem scalar (type : ScalarType) (order : Endian) :
    Local (fun r => r.scalar type order)
      fun bytes value => bytes.length = type.size ∧ type.ofOctets order bytes = value :=
  ⟨fun _ _ _ => Reader.scalar_eq_ok_iff, fun _ _ _ _ h hmore => delimited_of_length h.1 hmore.1⟩

theorem scalars (type : ScalarType) (order : Endian) (count : Nat) :
    Local (fun r => r.scalars type order count)
      fun bytes values =>
        bytes.length = count * type.size ∧ type.ofSlots order count bytes = values :=
  ⟨fun _ _ _ => Reader.scalars_eq_ok_iff, fun _ _ _ _ h hmore => delimited_of_length h.1 hmore.1⟩

/-- Bytes that are passed over give the value that is at hand. -/
theorem skip {α : Type} (value : α) (count : Nat) :
    Local (fun r => (r.skip count).map fun next => (value, next))
      fun bytes other => bytes.length = count ∧ value = other := by
  refine ⟨fun r other next => ?_, fun _ _ _ _ h hmore => delimited_of_length h.1 hmore.1⟩
  rw [map_eq_ok_iff]
  constructor
  · intro h
    obtain ⟨mid, hskip, hpair⟩ := h
    cases hpair
    obtain ⟨bytes, hpass, hlength⟩ := Reader.skip_eq_ok_iff.mp hskip
    exact ⟨bytes, hpass, hlength, rfl⟩
  · intro h
    obtain ⟨bytes, hpass, hlength, hvalue⟩ := h
    exact ⟨next, Reader.skip_eq_ok_iff.mpr ⟨bytes, hpass, hlength⟩, by rw [hvalue]⟩

theorem fixedText (count : Nat) :
    Local (fun r => r.fixedText count) fun bytes text => text.length = count ∧ bytes = text := by
  refine ⟨fun r text next => ?_, fun bytes more text other h hmore => ?_⟩
  · rw [Reader.fixedText_eq_ok_iff]
    constructor
    · intro h
      exact ⟨text, h.1, h.2, rfl⟩
    · intro h
      obtain ⟨bytes, hpass, hlength, rfl⟩ := h
      exact ⟨hpass, hlength⟩
  · exact delimited_of_length (h.2 ▸ h.1) (hmore.2 ▸ hmore.1)

/-- A text without a width ends at its zero byte, which stands nowhere else in it. -/
theorem terminatedText_zero :
    Local (fun r => r.terminatedText 0) fun bytes text => 0 ∉ text ∧ bytes = text ++ [0] := by
  refine ⟨fun r text next => ?_, fun bytes more text other h hmore => ?_⟩
  · rw [Reader.terminatedText_zero_eq_ok_iff]
    constructor
    · intro h
      exact ⟨text ++ [0], h.1, h.2, rfl⟩
    · intro h
      obtain ⟨bytes, hpass, hfree, rfl⟩ := h
      exact ⟨hpass, hfree⟩
  · obtain ⟨hfree, rfl⟩ := h
    obtain ⟨hother, hmore⟩ := hmore
    -- Both texts stand in front of the first zero byte of the longer run.
    have hleft : Reader.untilZero (text ++ [0] ++ more) = text := by
      rw [List.append_assoc, List.singleton_append]
      exact Reader.untilZero_append_zero hfree more
    have hright : Reader.untilZero (text ++ [0] ++ more) = other := by
      rw [hmore]
      exact Reader.untilZero_append_zero hother []
    have hsame : text ++ [0] ++ more = text ++ [0] := by rw [hmore, ← hright, hleft]
    exact List.append_right_eq_self.mp hsame

theorem terminatedText {width : Nat} (bounded : width ≠ 0) :
    Local (fun r => r.terminatedText width)
      fun bytes text => bytes.length = width ∧ Reader.untilZero bytes = text :=
  ⟨fun _ _ _ => Reader.terminatedText_eq_ok_iff bounded,
    fun _ _ _ _ h hmore => delimited_of_length h.1 hmore.1⟩

end Local

namespace Outcome

variable {α β : Type} {o later : Outcome α} {r : Reader} {before : Nat} {behind : List UInt8}

/-- What is decoded among more bytes is what is decoded without them. Only an error for want of bytes
may be lost if there are more of them behind. -/
structure Follows (before : Nat) (behind : List UInt8) (o later : Outcome α) : Prop where
  /-- A match is the same match, up to where it stands. -/
  matched {value : α} {next : Reader} :
    o.Matches value next → later.Matches value (next.within before behind)
  /-- What does not match still does not. -/
  noMatch : o.verdict = .noMatch → later.verdict = .noMatch
  /-- An error is still one of its kind. -/
  failed {cause : Error} : o.Fails cause → behind = [] ∨ cause.kind ≠ .bounds →
    ∃ other, later.Fails other ∧ other.kind = cause.kind

/-- A match is followed by the same match among more bytes. -/
theorem Matches.follows {value : α} {next : Reader} (h : o.Matches value next)
    (hlater : later.Matches value (next.within before behind)) : Follows before behind o later := by
  obtain ⟨hverdict, hreader⟩ := h
  refine ⟨fun hm => ?_, fun hn => ?_, fun hf _ => ?_⟩
  · obtain ⟨hother, hnext⟩ := hm
    rw [hverdict, Verdict.matched.injEq] at hother
    rwa [← hother, ← hnext, hreader]
  · rw [hverdict] at hn
    cases hn
  · rw [Fails, hverdict] at hf
    cases hf

theorem follows_matched (value : α) (r : Reader) :
    Follows before behind (matched value r) (matched value (r.within before behind)) :=
  matched_matches.follows matched_matches

/-- An error is followed by every error of its kind. -/
theorem Fails.follows {cause other : Error} (h : o.Fails cause) (hlater : later.Fails other)
    (kind : other.kind = cause.kind) : Follows before behind o later := by
  refine ⟨fun hm => ?_, fun hn => ?_, fun hf _ => ?_⟩
  · rw [Matches, h] at hm
    cases hm.1
  · rw [h] at hn
    cases hn
  · rw [Fails, h, Verdict.failed.injEq] at hf
    exact ⟨other, hlater, hf ▸ kind⟩

/-- What does not match is followed by what does not. -/
theorem follows_of_noMatch (h : o.verdict = .noMatch) (hlater : later.verdict = .noMatch) :
    Follows before behind o later := by
  refine ⟨fun hm => ?_, fun _ => hlater, fun hf _ => ?_⟩
  · rw [Matches, h] at hm
    cases hm.1
  · rw [Fails, h] at hf
    cases hf

namespace Follows

/-- What follows step by step follows as a whole. -/
theorem andThen {f g : α → Reader → Outcome β} (first : Follows before behind o later)
    (second : ∀ value mid, Follows before behind (f value mid) (g value (mid.within before behind))) :
    Follows before behind (o.andThen f) (later.andThen g) := by
  refine ⟨fun h => ?_, fun h => ?_, fun h kept => ?_⟩
  · obtain ⟨value, mid, hfirst, hsecond⟩ := andThen_matches_iff.mp h
    exact andThen_matches_iff.mpr ⟨value, _, first.matched hfirst, (second value mid).matched hsecond⟩
  · rcases andThen_noMatch_iff.mp h with hfirst | ⟨value, mid, hfirst, hsecond⟩
    · exact andThen_noMatch_iff.mpr (Or.inl (first.noMatch hfirst))
    · exact andThen_noMatch_iff.mpr
        (Or.inr ⟨value, _, first.matched hfirst, (second value mid).noMatch hsecond⟩)
  · rcases andThen_fails_iff.mp h with hfirst | ⟨value, mid, hfirst, hsecond⟩
    · obtain ⟨other, hother, hkind⟩ := first.failed hfirst kept
      exact ⟨other, andThen_fails_iff.mpr (Or.inl hother), hkind⟩
    · obtain ⟨other, hother, hkind⟩ := (second value mid).failed hsecond kept
      exact ⟨other, andThen_fails_iff.mpr (Or.inr ⟨value, _, first.matched hfirst, hother⟩), hkind⟩

theorem map (h : Follows before behind o later) (f : α → β) :
    Follows before behind (o.map f) (later.map f) :=
  h.andThen fun value mid => follows_matched (f value) mid

/-- Which events are reported does not matter. -/
theorem noting (h : Follows before behind o later) (event other : Event) :
    Follows before behind (o.noting event) (later.noting other) := by
  refine ⟨fun hm => ?_, fun hn => ?_, fun hf kept => ?_⟩
  · exact noting_matches_iff.mpr (h.matched (noting_matches_iff.mp hm))
  · exact noting_noMatch_iff.mpr (h.noMatch (noting_noMatch_iff.mp hn))
  · obtain ⟨cause, hcause, hkind⟩ := h.failed (noting_fails_iff.mp hf) kept
    exact ⟨cause, noting_fails_iff.mpr hcause, hkind⟩

theorem demanding (h : Follows before behind o later) (admits : α → Bool) (event other : α → Event) :
    Follows before behind (o.demanding admits event) (later.demanding admits other) := by
  refine h.andThen fun value mid => ?_
  cases admits value with
  | true => exact follows_matched value mid
  | false => exact follows_of_noMatch rfl rfl

/-- A read that passes the same bytes gives the same value. -/
theorem ofRead {read : Reader → Except BoundsError (α × Reader)}
    {spells : List UInt8 → α → Prop} (h : Local read spells) (r : Reader) :
    Follows before behind (ofRead r (read r))
      (ofRead (r.within before behind) (read (r.within before behind))) := by
  refine ⟨fun hm => ?_, fun hn => absurd hn ofRead_ne_noMatch, fun hf kept => ?_⟩
  · obtain ⟨bytes, hpass, hspells⟩ := (h.eq_ok_iff _ _ _).mp (ofRead_matches_iff.mp hm)
    exact ofRead_matches_iff.mpr ((h.eq_ok_iff _ _ _).mpr ⟨bytes, hpass.within, hspells⟩)
  · obtain ⟨bounds, hread, rfl⟩ := ofRead_fails_iff.mp hf
    have hbehind : behind = [] := kept.resolve_right fun hkind => hkind rfl
    subst hbehind
    cases hlater : read (r.within before []) with
    | error other => exact ⟨_, ofRead_fails_iff.mpr ⟨other, rfl, rfl⟩, rfl⟩
    | ok result =>
      -- What is read among the other bytes could have been read without them.
      obtain ⟨bytes, hpass, hspells⟩ := (h.eq_ok_iff _ _ _).mp hlater
      obtain ⟨mid, hmid, -⟩ := hpass.of_within
      have hok := (h.eq_ok_iff r _ _).mpr ⟨bytes, hmid, hspells⟩
      rw [hread] at hok
      cases hok

theorem skipping (h : Follows before behind o later) (count : Nat) :
    Follows before behind (o.skipping count) (later.skipping count) := by
  refine h.andThen fun value mid => ?_
  by_cases hcount : count = 0
  · simpa only [hcount, if_true] using follows_matched value mid
  · simpa only [hcount, if_false] using ofRead (Local.skip value count) mid

variable {decode other : Reader → Outcome Json}

/-- So many elements follow if each does. -/
theorem repeated (each : ∀ r, Follows before behind (decode r) (other (r.within before behind)))
    (total left : Nat) (r : Reader) :
    Follows before behind (repeated decode total left r)
      (repeated other total left (r.within before behind)) := by
  induction left generalizing r with
  | zero => exact follows_matched [] r
  | succ left ih =>
    exact ((each r).noting _ _).andThen fun value mid => (ih mid).map (value :: ·)

/-- The elements up to the end of the data follow if each does and the end stays where it is. -/
theorem repeatedToEnd (each : ∀ r, Follows before [] (decode r) (other (r.within before [])))
    (r : Reader) :
    Follows before [] (repeatedToEnd decode r) (repeatedToEnd other (r.within before [])) := by
  induction hsize : r.rest.length using Nat.strongRecOn generalizing r with
  | ind size ih =>
    rw [Outcome.repeatedToEnd, Outcome.repeatedToEnd, Reader.atEnd_within_nil]
    by_cases hend : r.atEnd = true
    · simpa only [hend, if_true] using follows_matched [] r
    · simp only [hend, Bool.false_eq_true, if_false]
      cases hverdict : (decode r).verdict with
      | noMatch =>
        simp only [(each r).noMatch hverdict]
        exact Matches.follows ⟨rfl, rfl⟩ ⟨rfl, rfl⟩
      | failed cause =>
        obtain ⟨later, hlater, hkind⟩ := (each r).failed hverdict (Or.inl rfl)
        have hother : (other (r.within before [])).verdict = .failed later := hlater
        simp only [hother]
        exact Fails.follows rfl rfl hkind
      | matched value =>
        have hfirst : (decode r).Matches value (decode r).reader := ⟨hverdict, rfl⟩
        obtain ⟨hother, hreader⟩ := (each r).matched hfirst
        simp only [hother, hreader, Reader.rest_within, List.append_nil]
        by_cases hshorter : (decode r).reader.rest.length < r.rest.length
        · have hrest := (ih _ (hsize ▸ hshorter) (decode r).reader rfl).map (value :: ·)
          simp only [hshorter, if_true]
          exact ⟨hrest.matched, hrest.noMatch, hrest.failed⟩
        · simp only [hshorter, if_false]
          exact Matches.follows ⟨rfl, rfl⟩ ⟨rfl, rfl⟩

end Follows

end Outcome

end ByteRecord
