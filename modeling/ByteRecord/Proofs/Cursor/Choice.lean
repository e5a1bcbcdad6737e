import ByteRecord.Proofs.Cursor.Decoding
import ByteRecord.Proofs.Decode.Record
import ByteRecord.Proofs.Json.Equality

/-!
# Ordered choice

A branch tries its alternatives from where it starts. What is left of an alternative that does not
match are its events; where it left the cursor does not matter to those behind it, however it came
there. Apart from the events a branch therefore ends as the first of its alternatives does that ends in
anything but no match, and otherwise where it started. `Ending.orElse` chooses between two endings.
It is associative, so a branch among the alternatives is as good as its own alternatives in its place.
-/

namespace ByteRecord

/-- How decoding ends and where it leaves the reader, whatever happened on the way. -/
structure Ending where
  /-- How decoding ends. -/
  verdict : Verdict Json
  /-- Where the reader stands. -/
  reader : Reader

/-- The outcome without its events. -/
def Outcome.ending (o : Outcome Json) : Ending := ⟨o.verdict, o.reader⟩

namespace Ending

variable {r : Reader} {first second : Ending} {endings : List Ending}

/-- The first ending, or the second one where the first is no match. -/
def orElse (first second : Ending) : Ending :=
  match first.verdict with
  | .noMatch => second
  | _ => first

theorem orElse_of_noMatch (h : first.verdict = .noMatch) : first.orElse second = second := by
  rw [orElse, h]

theorem orElse_of_ne_noMatch (h : first.verdict ≠ .noMatch) : first.orElse second = first := by
  unfold orElse
  split
  · contradiction
  · rfl

theorem orElse_assoc (first second third : Ending) :
    (first.orElse second).orElse third = first.orElse (second.orElse third) := by
  by_cases h : first.verdict = .noMatch
  · rw [orElse_of_noMatch h, orElse_of_noMatch h]
  · rw [orElse_of_ne_noMatch h, orElse_of_ne_noMatch h, orElse_of_ne_noMatch h]

/-- The first ending that is anything but no match; if there is none, no match at the given place. -/
def choose (r : Reader) (endings : List Ending) : Ending := endings.foldr orElse ⟨.noMatch, r⟩

theorem choose_cons : choose r (first :: endings) = first.orElse (choose r endings) := rfl

theorem choose_append (before behind : List Ending) :
    choose r (before ++ behind) = (choose r before).orElse (choose r behind) := by
  induction before with
  | nil => exact (orElse_of_noMatch rfl).symm
  | cons first rest ih => rw [List.cons_append, choose_cons, choose_cons, ih, orElse_assoc]

/-- A choice among the endings is as good as the endings it is made from. -/
theorem choose_flatten (before inner behind : List Ending) :
    choose r (before ++ choose r inner :: behind) = choose r (before ++ inner ++ behind) := by
  rw [choose_append, choose_cons, choose_append, choose_append, orElse_assoc]

/-- Where no ending is chosen, the reader is back at the start. -/
theorem reader_choose_of_noMatch (h : (choose r endings).verdict = .noMatch) :
    (choose r endings).reader = r := by
  induction endings with
  | nil => rfl
  | cons first rest ih =>
    rw [choose_cons] at h ⊢
    by_cases hfirst : first.verdict = .noMatch
    · rw [orElse_of_noMatch hfirst] at h ⊢
      exact ih h
    · rw [orElse_of_ne_noMatch hfirst] at h
      exact absurd h hfirst

end Ending

namespace Node

variable {scope : Scope} {r : Reader} {c next : Cursor} {alternatives : List Node} {value : Json}

/-- Alternatives are chosen from by how each of them ends when it is decoded from the start. -/
theorem ending_decodeFirst (total index : Nat) :
    (decodeFirst scope r total index alternatives).ending
      = .choose r (alternatives.map fun node => (node.decode scope r).ending) := by
  induction alternatives generalizing index with
  | nil => rfl
  | cons node rest ih =>
    rw [List.map_cons, Ending.choose_cons, ← ih (index + 1), decodeFirst]
    dsimp only
    cases hverdict : (node.decode scope r).verdict with
    | noMatch => exact (Ending.orElse_of_noMatch hverdict).symm
    | matched value | failed cause =>
      have hends : (node.decode scope r).ending.verdict ≠ .noMatch := by
        rw [Outcome.ending, hverdict]
        intro h
        cases h
      rw [Ending.orElse_of_ne_noMatch hends, Outcome.ending, Outcome.ending, hverdict]

theorem ending_branch :
    ((branch alternatives).decode scope r).ending
      = .choose r (alternatives.map fun node => (node.decode scope r).ending) := by
  rw [decode, ending_decodeFirst]

/-- A branch among the alternatives ends as its own alternatives in its place do. -/
theorem ending_branch_flatten (before inner behind : List Node) :
    ((branch (before ++ branch inner :: behind)).decode scope r).ending
      = ((branch (before ++ inner ++ behind)).decode scope r).ending := by
  rw [ending_branch, ending_branch, List.map_append, List.map_cons, ending_branch,
    Ending.choose_flatten, List.map_append, List.map_append]

/-- The first alternative that matches when it is decoded alone with the cursor where it is; those
before it do not match. -/
def TakesFirst (scope : Scope) (c : Cursor) (alternatives : List Node) (value : Json)
    (next : Cursor) : Prop :=
  ∃ before node behind, alternatives = before ++ node :: behind
    ∧ (∀ other ∈ before, ∃ left, decodeAt scope other c = some (.noMatch, left))
    ∧ decodeAt scope node c = some (.matched value, next)

/-- With a cursor, what is decoded is how decoding with a reader ends. -/
theorem decodeAt_eq_ending (node : Node) (scope : Scope) (within : c.Within)
    (small : c.length ≤ integerBound) :
    decodeAt scope node c = some ((node.decode scope c.reader).ending.verdict,
      c.moveTo (node.decode scope c.reader).ending.reader.offset) :=
  (node.tracks scope).attempt_eq c within small

/-- A branch that matches takes its first alternative that matches. -/
theorem takesFirst_of_decodeAt_branch (within : c.Within) (small : c.length ≤ integerBound)
    (h : decodeAt scope (branch alternatives) c = some (.matched value, next)) :
    TakesFirst scope c alternatives value next := by
  have hplace := decodeAt_eq_ending (branch alternatives) scope within small
  rw [h, Option.some.injEq, Prod.mk.injEq] at hplace
  obtain ⟨hverdict, rfl⟩ := hplace
  obtain ⟨before, node, behind, rfl, hbefore, hnode⟩ :=
    decode_branch_matches_iff.mp ⟨hverdict.symm, rfl⟩
  refine ⟨before, node, behind, rfl, fun other hother => ?_, ?_⟩
  · have hother := hbefore other hother
    have hleft := decodeAt_eq_ending other scope within small
    rw [Outcome.ending, hother] at hleft
    exact ⟨_, hleft⟩
  · rw [decodeAt_eq_ending node scope within small, Outcome.ending, hnode.1, hnode.2]
    rfl

/-- A branch among the alternatives of another one may be replaced by its own alternatives: the same
record and position, no match with the cursor back where it was, or the same error come out. On a match
they are those of the first alternative that matches when it is decoded alone from the start. -/
theorem decodeAt_branch_flatten (before inner behind : List Node) (scope : Scope)
    (within : c.Within) (small : c.length < 2 ^ 53) :
    ∃ verdict next,
      decodeAt scope (branch (before ++ branch inner :: behind)) c = some (verdict, next)
        ∧ decodeAt scope (branch (before ++ inner ++ behind)) c = some (verdict, next)
        ∧ (verdict = .noMatch → next = c)
        ∧ ∀ value, verdict = .matched value →
            TakesFirst scope c (before ++ branch inner :: behind) value next
              ∧ TakesFirst scope c (before ++ inner ++ behind) value next := by
  have hsmall : c.length ≤ integerBound := small.le
  have hnested := decodeAt_eq_ending (branch (before ++ branch inner :: behind)) scope within hsmall
  have hflat := decodeAt_eq_ending (branch (before ++ inner ++ behind)) scope within hsmall
  rw [ending_branch_flatten] at hnested
  refine ⟨_, _, hnested, hflat, fun hnone => ?_, fun value hvalue => ?_⟩
  · rw [ending_branch] at hnone ⊢
    rw [Ending.reader_choose_of_noMatch hnone]
    rfl
  · rw [hvalue] at hnested hflat
    exact ⟨takesFirst_of_decodeAt_branch within hsmall hnested,
      takesFirst_of_decodeAt_branch within hsmall hflat⟩

/-- A number of one byte that must equal the reference. -/
def markNode (reference : Int64) : Node :=
  leaf (.scalar ⟨.uint8, .big, 0, some ⟨.integer reference, false⟩⟩)

/-- Two numbers in a row, given by their references. -/
def markPairNode (first second : Int64) : Node :=
  struct [("first", markNode first), ("second", markNode second)]

/-- A cursor in front of a seven and an eight. -/
def marksCursor : Cursor := (Cursor.ofBytes [5, 7, 8] .big false).moveTo 1

/-- Both pairs have passed over the seven, one of them in a branch of its own, when they do not match;
the seven is found from the start all the same. -/
theorem decodeAt_branch_flatten_marks :
    decodeAt none (branch [markPairNode 7 9, branch [markPairNode 7 6, markNode 7], markNode 8])
        marksCursor = some (.matched (.number (.unsigned 7)), marksCursor.moveTo 2)
      ∧ TakesFirst none marksCursor [markPairNode 7 9, markPairNode 7 6, markNode 7, markNode 8]
          (.number (.unsigned 7)) (marksCursor.moveTo 2) := by
  have hwithin : marksCursor.Within := ⟨by decide, by decide⟩
  have hsmall : marksCursor.length < 2 ^ 53 := by decide
  obtain ⟨verdict, next, hnested, hflat, -, htakes⟩ := decodeAt_branch_flatten [markPairNode 7 9]
    [markPairNode 7 6, markNode 7] [markNode 8] none hwithin hsmall
  have hrecord : ((branch [markPairNode 7 9, markPairNode 7 6, markNode 7, markNode 8]).decodeRecord
      ⟨1, false, ""⟩ [5, 7, 8]).1 = .ok ⟨some (.number (.unsigned 7)), 2, 1⟩ :=
    eq_ok_of_toOption (by decide +kernel)
  obtain ⟨-, place, ⟨hvalue, rfl⟩, -, hstop, -⟩ := decodeRecord_eq_ok_some_iff.mp hrecord
  have hending := hflat.symm.trans (decodeAt_eq_ending _ none hwithin hsmall.le)
  rw [Option.some.injEq, Prod.mk.injEq] at hending
  obtain rfl : verdict = .matched (.number (.unsigned 7)) := hending.1.trans hvalue
  obtain rfl : next = marksCursor.moveTo 2 := hending.2.trans (congrArg marksCursor.moveTo hstop.symm)
  exact ⟨hnested, (htakes _ rfl).2⟩

end Node

end ByteRecord
