import RegexMachine.Proofs.Pattern.Termination

/-! # What a fragment returns

A processor of its own executes a compiled fragment without a budget and returns one
result from every start: that of the first outcome of the fragment, or no match. Where no
attempt sets out there is no match either, and nothing is executed. -/

namespace RegexMachine

structure Subject.Admits (subject : Subject) (start : Nat) : Prop where
  covered : subject.covers start = true
  boundary : subject.granularity = .grapheme → subject.isBoundary start = true

namespace Processor

theorem new_of_valid {program : Program} (valid : program.Valid) (options : Options) :
    Processor.new program options = .ok { program, options } := by
  rw [Processor.new, Program.validate_eq_ok_iff.mpr valid]
  rfl

theorem refusal?_eq_none_iff_admits {processor : Processor} {subject : Subject} {start : Nat}
    (same : subject.granularity = processor.program.granularity) :
    processor.refusal? subject start processor.program.entry = none ↔
      subject.Admits start := by
  rw [refusal?_eq_none_iff]
  constructor
  · intro unrefused
    exact ⟨unrefused.2.covered, unrefused.2.boundary⟩
  · intro admits
    exact ⟨rfl, same, admits.covered, admits.boundary⟩

variable [CharacterData]

theorem captures_of_not_accepted {processor after : Processor} {subject : Subject}
    {start fuel : Nat} {direction : Direction} {result : MatchResult}
    (executed : processor.execute fuel subject start direction = some (.ok result, after))
    (unaccepted : result.status ≠ .accepted) : result.captures = .empty := by
  rcases execute_cases executed with stopped | refused | ⟨-, ending, final, -, reported⟩
  · cases stopped
  · unfold refusal? at refused
    split_ifs at refused <;> cases refused <;> rfl
  · cases ending with
    | error fault => cases reported
    | ok status =>
        cases status with
        | accepted =>
            exact absurd (Attempt.reported_of_result reported.symm).1 unaccepted
        | noMatch => cases reported; rfl
        | budgetExceeded => cases reported; rfl

end Processor

theorem MatchResult.Reports.captures_eq {result other : MatchResult} {outcome : Outcome}
    {start groups : Nat} (reports : result.Reports outcome start groups)
    (again : other.Reports outcome start groups) : result.captures = other.captures := by
  have sizes : result.captures.groups.size = other.captures.groups.size :=
    reports.size.trans again.size.symm
  have same : result.captures.groups = other.captures.groups := by
    apply Array.ext_getElem?
    intro group
    rcases Nat.eq_zero_or_pos group with rfl | positive
    · rw [reports.whole, again.whole]
    · by_cases inside : group < groups
      · rw [reports.others group positive inside, again.others group positive inside]
      · have size : result.captures.groups.size = groups := reports.size
        rw [Array.getElem?_eq_none (by omega), Array.getElem?_eq_none (by omega)]
  exact congrArg CaptureTable.mk same

namespace Fragment

variable [CharacterData]

/-- What a new processor for the compiled fragment returns, given enough fuel. -/
def Returns (fragment : Fragment) (entry : Direction) (subject : Subject) (start : Nat)
    (result : MatchResult) : Prop :=
  ∃ program processor, fragment.compile entry subject.granularity = .ok program ∧
    Processor.new program {} = .ok processor ∧ ∃ fuel, ∀ more, fuel ≤ more →
      (processor.execute more subject start entry).map Prod.fst = some (.ok result)

variable {fragment : Fragment} {entry : Direction} {subject : Subject} {start : Nat}
  {program : Program}

theorem Returns.unique {result other : MatchResult}
    (first : fragment.Returns entry subject start result)
    (second : fragment.Returns entry subject start other) : result = other := by
  obtain ⟨program, processor, compiled, made, fuel, executed⟩ := first
  obtain ⟨_, _, again, remade, enough, reexecuted⟩ := second
  rw [compiled] at again
  cases again
  rw [made] at remade
  cases remade
  have same := (executed (max fuel enough) (Nat.le_max_left _ _)).symm.trans
    (reexecuted (max fuel enough) (Nat.le_max_right _ _))
  cases same
  rfl

/-- The result is the one that the outcomes of the fragment give, if an attempt sets out,
and says otherwise that there is no match. -/
structure Answers (fragment : Fragment) (entry : Direction) (subject : Subject) (start : Nat)
    (groups : Nat) (result : MatchResult) : Prop where
  admitted : subject.Admits start →
    match fragment.outcomes subject entry (.opening start) with
    | [] => result.status = .noMatch
    | first :: _ => result.Reports first start groups
  refused : ¬subject.Admits start → result = .failed 0

theorem returns_of_compile (compiled : fragment.compile entry subject.granularity = .ok program)
    (start : Nat) :
    ∃ result, fragment.Returns entry subject start result ∧
      fragment.Answers entry subject start program.captureCount result := by
  have compiles := Fragment.compiles compiled
  have same := compiles.entry
  subst same
  let processor : Processor := { program, options := {} }
  have made : Processor.new program {} = .ok processor :=
    Processor.new_of_valid compiles.valid {}
  have granularities : subject.granularity = processor.program.granularity :=
    compiles.granularity.symm
  have decides : processor.refusal? subject start program.entry = none ↔
      subject.Admits start := Processor.refusal?_eq_none_iff_admits granularities
  cases refusal : processor.refusal? subject start program.entry with
  | some refused =>
      have outside : ¬subject.Admits start := by
        rw [← decides, refusal]
        nofun
      refine ⟨.failed 0, ⟨program, processor, compiled, made, 0, fun more _ => ?_⟩,
        fun admits => absurd admits outside, fun _ => rfl⟩
      rw [Processor.execute_of_refused rfl refusal rfl granularities]
      rfl
  | none =>
      have own : fragment.compile program.entry subject.granularity =
          .ok processor.program := compiled
      rcases Processor.execute_compiled own rfl rfl
        (Processor.refusal?_eq_none_iff.mp refusal).2 with
        ⟨fuel, result, after, executed, agrees⟩
      refine ⟨result, ⟨program, processor, compiled, made, fuel, fun more enough => ?_⟩,
        fun _ => agrees, fun outside => absurd (decides.mp refusal) outside⟩
      rw [executed more enough]
      rfl

theorem Returns.captures_of_not_accepted {result : MatchResult}
    (returns : fragment.Returns entry subject start result)
    (unaccepted : result.status ≠ .accepted) : result.captures = .empty := by
  rcases returns with ⟨program, processor, -, -, fuel, executed⟩
  rcases Option.map_eq_some_iff.mp (executed fuel (Nat.le_refl fuel)) with
    ⟨⟨outcome, after⟩, ran, same⟩
  cases same
  exact Processor.captures_of_not_accepted ran unaccepted

/-- Both fragments return from the start, and the same but for the number of
instructions. -/
def ReturnsLike (fragment other : Fragment) (entry : Direction) (subject : Subject)
    (start : Nat) : Prop :=
  ∃ result otherResult, fragment.Returns entry subject start result ∧
    other.Returns entry subject start otherResult ∧
      result.status = otherResult.status ∧ result.range = otherResult.range ∧
        result.captures = otherResult.captures

theorem returnsLike_of_outcomes_eq {other : Fragment} {otherProgram : Program}
    (compiled : fragment.compile entry subject.granularity = .ok program)
    (otherCompiled : other.compile entry subject.granularity = .ok otherProgram)
    (groups : program.captureCount = otherProgram.captureCount)
    (same : subject.Admits start → fragment.outcomes subject entry (.opening start) =
      other.outcomes subject entry (.opening start)) :
    fragment.ReturnsLike other entry subject start := by
  rcases returns_of_compile compiled start with ⟨result, returns, answers⟩
  rcases returns_of_compile otherCompiled start with ⟨otherResult, otherReturns, otherAnswers⟩
  suffices alike : result.status = otherResult.status ∧
      result.captures = otherResult.captures by
    refine ⟨result, otherResult, returns, otherReturns, alike.1, ?_, alike.2⟩
    rw [MatchResult.range, MatchResult.range, alike.2]
  by_cases admits : subject.Admits start
  · have agrees := answers.admitted admits
    have otherAgrees := otherAnswers.admitted admits
    rw [← same admits, ← groups] at otherAgrees
    cases found : fragment.outcomes subject entry (.opening start) with
    | nil =>
        rw [found] at agrees otherAgrees
        have missed : result.status = .noMatch := agrees
        have otherMissed : otherResult.status = .noMatch := otherAgrees
        refine ⟨missed.trans otherMissed.symm, ?_⟩
        rw [returns.captures_of_not_accepted (by simp [missed]),
          otherReturns.captures_of_not_accepted (by simp [otherMissed])]
    | cons first rest =>
        rw [found] at agrees otherAgrees
        exact ⟨agrees.accepted.trans otherAgrees.accepted.symm,
          agrees.captures_eq otherAgrees⟩
  · rw [answers.refused admits, otherAnswers.refused admits]
    exact ⟨rfl, rfl⟩

end Fragment

end RegexMachine
