import RegexMachine.Proofs.Pattern.Groups
import RegexMachine.Proofs.Pattern.Progress
import RegexMachine.Proofs.Pattern.Returning
import RegexMachine.Rune.Repertoire

/-! # Unrolling loops

The iterations that a loop owes can be written out in front of a loop that owes none. Of
the spare iterations each has to move, so there can be no more of them than octets are
left; as long as these are too few to reach the bound, it does not matter that an
unbounded loop has one. -/

namespace RegexMachine

namespace Subject

variable {subject : Subject} {direction : Direction} {position landing : Nat}

theorem room_le (direction : Direction) (covered : subject.covers position = true) :
    subject.room position direction ≤ subject.upper - subject.lower := by
  rw [covers_iff] at covered
  cases direction <;> simp only [room] <;> omega

theorem Onward.room_lt (onward : subject.Onward direction position landing)
    (covered : subject.covers position = true) (moved : landing ≠ position) :
    subject.room landing direction < subject.room position direction := by
  rw [covers_iff] at covered
  cases direction <;> simp only [Onward] at onward <;> simp only [room] <;> omega

end Subject

namespace Matcher

variable {subject : Subject} {direction : Direction} {body inner : Matcher}

theorem sequence_singleton (direction : Direction) (part : Matcher) :
    sequence direction [part] = part := by
  cases direction with
  | forward =>
      funext here
      exact List.flatMap_singleton' _
  | reverse =>
      funext here
      exact List.flatMap_singleton _ _

theorem sequence_concat (parts : List Matcher) (last : Matcher) :
    sequence .forward (parts ++ [last]) = (sequence .forward parts).chain last := by
  induction parts with
  | nil =>
      rw [List.nil_append, sequence_singleton]
      funext here
      exact (List.flatMap_singleton _ _).symm
  | cons part rest induction =>
      funext here
      change (part here).flatMap (sequence .forward (rest ++ [last])) = _
      rw [induction]
      exact List.flatMap_assoc.symm

theorem sequence_reverse (parts : List Matcher) :
    sequence .reverse parts = sequence .forward parts.reverse := by
  induction parts with
  | nil => rfl
  | cons part rest induction =>
      rw [List.reverse_cons, sequence_concat, ← induction]
      rfl

/-- Iterations that are owed can be taken off the count and off the bound, if the bound is
met just when it would be met without them. -/
theorem iterate_shift (advances : body.Advances subject direction) (greed : Greed)
    {least max most count : Nat} {here : Outcome}
    (covered : subject.covers here.position = true)
    (alike : ∀ passed ≤ count + subject.room here.position direction,
      (max ≤ least + passed ↔ most ≤ passed)) :
    iterate greed least max body (least + count) here =
      iterate greed 0 most body count here := by
  induction room : subject.room here.position direction using Nat.strongRecOn
    generalizing count here with
  | ind room induction =>
      rw [room] at alike
      have full := alike count (Nat.le_add_right _ _)
      rw [iterate, iterate, if_neg (by omega), if_neg (Nat.not_lt_zero count)]
      by_cases done : most ≤ count
      · rw [if_pos done, if_pos (full.mpr done)]
      · rw [if_neg done, if_neg (full.not.mpr done)]
        -- A spare iteration moves, and so there are fewer octets left behind it.
        have again : ((body here).flatMap fun next =>
              if next.position = here.position then []
              else iterate greed least max body (least + count + 1) next) =
            (body here).flatMap fun next =>
              if next.position = here.position then []
              else iterate greed 0 most body (count + 1) next := by
          apply List.flatMap_congr
          intro next reached
          by_cases stays : next.position = here.position
          · rw [if_pos stays, if_pos stays]
          · rw [if_neg stays, if_neg stays]
            have onward : subject.Onward direction here.position next.position :=
              advances here covered next reached
            have shorter := onward.room_lt covered stays
            have later : ∀ passed ≤ count + 1 + subject.room next.position direction,
                (max ≤ least + passed ↔ most ≤ passed) := by
              intro passed few
              exact alike passed (by omega)
            exact induction _ (room ▸ shorter) (onward.covers covered) later rfl
        rw [again]

theorem iterate_eq_sequence (advances : body.Advances subject direction) (greed : Greed)
    {least max most : Nat}
    (alike : ∀ passed ≤ subject.upper - subject.lower, (max ≤ least + passed ↔ most ≤ passed))
    {owed count : Nat} (split : count + owed = least) {here : Outcome}
    (covered : subject.covers here.position = true) :
    iterate greed least max body count here =
      sequence .forward (List.replicate owed body ++ [iterate greed 0 most body 0]) here := by
  induction owed generalizing count here with
  | zero =>
      obtain rfl : count = least := split
      rw [List.replicate_zero, List.nil_append, sequence_singleton]
      have room := Subject.room_le direction covered
      have ahead : ∀ passed ≤ 0 + subject.room here.position direction,
          (max ≤ count + passed ↔ most ≤ passed) := by
        intro passed few
        exact alike passed (by omega)
      exact iterate_shift advances greed covered ahead
  | succ owed induction =>
      rw [iterate, if_pos (by omega), List.replicate_succ, List.cons_append]
      apply List.flatMap_congr
      intro next reached
      exact induction (by omega) ((advances here covered next reached).covers covered)

end Matcher

namespace Fragment

/-- The owed iterations of a loop written out, and a loop for the others, in the order in
which the direction meets them. -/
def unrolled (greed : Greed) (min max : UInt32) (body : Fragment) (entry : Direction) :
    Fragment :=
  let rest := repetition greed 0 (if max = unbounded then unbounded else max - min) body
  match entry with
  | .forward => sequence (List.replicate min.toNat body ++ [rest])
  | .reverse => sequence (rest :: List.replicate min.toNat body)

variable {greed : Greed} {min max : UInt32} {body : Fragment} {entry : Direction}
  {subject : Subject}

section

variable [CharacterData]

theorem outcomesEach_eq_map (subject : Subject) (fragments : List Fragment)
    (direction : Direction) :
    outcomesEach subject fragments direction =
      fragments.map fun part => part.outcomes subject direction := by
  induction fragments with
  | nil => rfl
  | cons part rest induction => exact congrArg (_ :: ·) induction

theorem outcomes_unrolled (greed : Greed) (min max : UInt32) (body : Fragment)
    (entry : Direction) :
    (unrolled greed min max body entry).outcomes subject entry =
      Matcher.sequence .forward
        (List.replicate min.toNat (body.outcomes subject entry) ++
          [Matcher.iterate greed 0
            (if max = unbounded then unbounded else max - min).toNat
            (body.outcomes subject entry) 0]) := by
  cases entry with
  | forward =>
      rw [unrolled, outcomes, outcomesEach_eq_map, List.map_append, List.map_replicate]
      rfl
  | reverse =>
      rw [unrolled, outcomes, outcomesEach_eq_map, Matcher.sequence_reverse, List.map_cons,
        List.map_replicate, List.reverse_cons, List.reverse_replicate]
      rfl

omit [CharacterData] in
theorem groupBoundEach_append (fragments others : List Fragment) :
    groupBoundEach (fragments ++ others) =
      Nat.max (groupBoundEach fragments) (groupBoundEach others) := by
  induction fragments with
  | nil => exact (Nat.zero_max _).symm
  | cons part rest induction =>
      rw [List.cons_append, groupBoundEach, induction, groupBoundEach]
      exact (Nat.max_assoc _ _ _).symm

omit [CharacterData] in
theorem groupBoundEach_replicate_le (count : Nat) (part : Fragment) :
    groupBoundEach (List.replicate count part) ≤ part.groupBound := by
  induction count with
  | zero => exact Nat.zero_le _
  | succ count induction => exact Nat.max_le.mpr ⟨Nat.le_refl _, induction⟩

omit [CharacterData] in
theorem groupBound_unrolled (greed : Greed) (min max : UInt32) (body : Fragment)
    (entry : Direction) :
    (unrolled greed min max body entry).groupBound = body.groupBound := by
  have copies := groupBoundEach_replicate_le min.toNat body
  cases entry with
  | forward =>
      rw [unrolled, groupBound, groupBoundEach_append, groupBoundEach, groupBoundEach,
        groupBound, Nat.max_zero]
      exact Nat.max_eq_right copies
  | reverse =>
      rw [unrolled, groupBound, groupBoundEach, groupBound]
      exact Nat.max_eq_left copies

/-- A loop returns what it returns with its owed iterations written out in front of it,
whichever iterations come first and whatever they leave in the groups. If the loop is
unbounded, this takes less iterations than stand for no bound: those that are owed, and
one for each octet between the limits. -/
theorem returnsLike_unrolled {program otherProgram : Program} (ordered : min ≤ max)
    (few : max = unbounded →
      min.toNat + (subject.upper - subject.lower) < unbounded.toNat)
    (compiled : (repetition greed min max body).compile entry subject.granularity =
      .ok program)
    (otherCompiled : (unrolled greed min max body entry).compile entry subject.granularity =
      .ok otherProgram)
    (start : Nat) :
    (repetition greed min max body).ReturnsLike (unrolled greed min max body entry) entry
      subject start := by
  apply returnsLike_of_outcomes_eq compiled otherCompiled
  · rw [captureCount_of_compile compiled, captureCount_of_compile otherCompiled,
      groupBound_unrolled, groupBound]
  · intro admits
    rw [outcomes_unrolled, outcomes]
    apply Matcher.iterate_eq_sequence (body.outcomes_advance entry) greed _ (Nat.zero_add _)
      admits.covered
    intro passed within
    by_cases free : max = unbounded
    · rw [if_pos free, free]
      have below := few free
      omega
    · rw [if_neg free, UInt32.toNat_sub_of_le _ _ ordered]
      have least : min.toNat ≤ max.toNat := ordered
      omega

end

open scoped Repertoire in
theorem returnsLike_unrolledLetters :
    (repetition .greedy 2 unbounded
        (capture 1 (alternation [literal #[0x61] .none, sequence []]))).ReturnsLike
      (unrolled .greedy 2 unbounded
        (capture 1 (alternation [literal #[0x61] .none, sequence []])) .reverse)
      .reverse (.whole (.byUnits #[0x61, 0x61, 0x61]) .codePoint) 3 := by
  let subject : Subject := .whole (.byUnits #[0x61, 0x61, 0x61]) .codePoint
  have compiles : ∃ program, (repetition .greedy 2 unbounded
      (capture 1 (alternation [literal #[0x61] .none, sequence []]))).compile .reverse
        subject.granularity = .ok program := ⟨_, by cbv⟩
  have otherCompiles : ∃ program, (unrolled .greedy 2 unbounded
      (capture 1 (alternation [literal #[0x61] .none, sequence []])) .reverse).compile .reverse
        subject.granularity = .ok program := ⟨_, by cbv⟩
  rcases compiles with ⟨program, compiled⟩
  rcases otherCompiles with ⟨otherProgram, otherCompiled⟩
  exact returnsLike_unrolled (by decide) (fun _ => by cbv) compiled otherCompiled 3

end Fragment

end RegexMachine
