import RegexMachine.Proofs.Pattern.Progress
import RegexMachine.Proofs.Pattern.Termination

/-! # Attempts within a budget

A budget changes nothing but that an attempt may end before its time. So an attempt
at a compiled program comes to an end from every start, in the same way whatever
attempts were made before, and a match that it accepts lies onward from the start. -/

namespace RegexMachine

namespace Span

def near (span : Span) : Direction → Nat
  | .forward => span.first
  | .reverse => span.last

def far (span : Span) : Direction → Nat
  | .forward => span.last
  | .reverse => span.first

end Span

def MatchResult.LiesOnward (result : MatchResult) (subject : Subject) (direction : Direction)
    (start : Nat) : Prop :=
  result.status = .accepted → result.range.near direction = start ∧
    subject.Onward direction start (result.range.far direction)

theorem MatchResult.Reports.liesOnward {result : MatchResult} {subject : Subject}
    {direction : Direction} {outcome : Outcome} {start groups : Nat}
    (reports : result.Reports outcome start groups)
    (onward : subject.Onward direction start outcome.position) :
    result.LiesOnward subject direction start := by
  intro _
  have range : result.range = ⟨min start outcome.position, max start outcome.position⟩ := by
    rw [MatchResult.range, reports.whole]
    rfl
  rw [range]
  cases direction with
  | forward =>
      refine ⟨min_eq_left onward.1, ?_⟩
      rw [Span.far, max_eq_right onward.1]
      exact onward
  | reverse =>
      refine ⟨max_eq_left onward.2, ?_⟩
      rw [Span.far, min_eq_right onward.2]
      exact onward

theorem MatchResult.liesOnward_of_not_accepted {result : MatchResult} {subject : Subject}
    {direction : Direction} {start : Nat} (unaccepted : result.status ≠ .accepted) :
    result.LiesOnward subject direction start :=
  fun accepted => absurd accepted unaccepted

variable [CharacterData]

/-- An attempt at a compiled program comes to an end, be it that of the budget, and is
reported without a fault. -/
theorem Attempt.ends_onward (attempt : Attempt) {fragment : Fragment}
    {granularity : Granularity}
    (compiles : fragment.Compiles attempt.program.entry granularity attempt.program)
    (covered : attempt.subject.covers attempt.start = true) (left : State) :
    ∃ ending final result, attempt.Ends (attempt.setOut left) ending final ∧
      attempt.result ending final = .ok result ∧
        result.LiesOnward attempt.subject attempt.program.entry attempt.start := by
  have exceeds : ∀ last, attempt.Ends (attempt.setOut left) (.ok .budgetExceeded) last →
      ∃ ending final result, attempt.Ends (attempt.setOut left) ending final ∧
        attempt.result ending final = .ok result ∧
          result.LiesOnward attempt.subject attempt.program.entry attempt.start :=
    fun last ends => ⟨_, last, _, ends, rfl, MatchResult.liesOnward_of_not_accepted nofun⟩
  have lifted : attempt.unbounded.budget = 0 := rfl
  cases found : attempt.unbounded.outcomesOf fragment with
  | nil =>
      obtain ⟨final, ends⟩ := ends_noMatch lifted compiles left found
      rcases ends.budgeted with ends | ⟨last, ends⟩
      · exact ⟨_, final, _, ends, rfl, MatchResult.liesOnward_of_not_accepted nofun⟩
      · exact exceeds last ends
  | cons first rest =>
      obtain ⟨final, ends, reached, groups⟩ := ends_accepted lifted compiles left found
      rcases ends.budgeted with ends | ⟨last, ends⟩
      · have nonempty : 0 < final.journal.groups := by
          rw [groups]
          exact compiles.groups
        obtain ⟨result, reported, reports⟩ : ∃ result,
            attempt.result (.ok .accepted) final = .ok result ∧
              result.Reports final.outcome attempt.start final.journal.groups :=
          Attempt.result_accepted nonempty
        have member : first ∈ attempt.unbounded.outcomesOf fragment := by
          rw [found]
          exact List.mem_cons_self
        have onward := fragment.outcomes_advance attempt.program.entry
          (.opening attempt.start) covered first member
        rw [reached] at reports
        exact ⟨_, final, result, ends, reported, reports.liesOnward onward⟩
      · exact exceeds last ends

namespace Processor

variable {processor : Processor} {subject : Subject} {fragment : Fragment}
  {entry : Direction} {granularity : Granularity}

/-- From any start within the limits, and with enough fuel, the processor comes to a
verdict on the start, and a match that it accepts lies onward from there. What
earlier attempts have left behind does not matter. -/
structure Judges (processor : Processor) (subject : Subject) (fuel : Nat)
    (verdict : Nat → MatchResult) (after : State → Nat → State) : Prop where
  execute : ∀ start, subject.covers start = true → ∀ left more, fuel ≤ more →
    { processor with state := left }.execute more subject start processor.program.entry =
      some (.ok (verdict start), { processor with state := after left start })
  onward : ∀ start, subject.covers start = true →
    (verdict start).LiesOnward subject processor.program.entry start

theorem Judges.mono {fuel more : Nat} {verdict : Nat → MatchResult}
    {after : State → Nat → State} (judges : processor.Judges subject fuel verdict after)
    (enough : fuel ≤ more) : processor.Judges subject more verdict after where
  execute start covered left most plenty :=
    judges.execute start covered left most (Nat.le_trans enough plenty)
  onward := judges.onward

theorem execute_decides
    (compiles : fragment.Compiles processor.program.entry granularity processor.program)
    (free : processor.busy = false) (same : subject.granularity = granularity) {start : Nat}
    (covered : subject.covers start = true) :
    ∃ fuel result, result.LiesOnward subject processor.program.entry start ∧
      ∃ after : State → State, ∀ left more, fuel ≤ more →
        { processor with state := left }.execute more subject start processor.program.entry =
          some (.ok result, { processor with state := after left }) := by
  have granularities : subject.granularity = processor.program.granularity :=
    same.trans compiles.granularity.symm
  cases refusal : processor.refusal? subject start processor.program.entry with
  | some refused =>
      cases refusal?_eq_failed refusal rfl granularities
      refine ⟨0, .failed 0, MatchResult.liesOnward_of_not_accepted nofun, id, ?_⟩
      intro left more _
      let processor : Processor := { processor with state := left }
      exact execute_of_refusal (show processor.busy = false from free) refusal more
  | none =>
      obtain ⟨-, admitted⟩ := refusal?_eq_none_iff.mp refusal
      obtain ⟨ending, final, result, ends, reported, onward⟩ :=
        (processor.attempt subject start).ends_onward compiles covered processor.state
      obtain ⟨fuel, ran⟩ := ends.run
      refine ⟨fuel, result, onward, fun _ => final, fun left more enough => ?_⟩
      let processor : Processor := { processor with state := left }
      have executed := execute_of_admitted (show processor.busy = false from free) admitted more
      have later : (processor.attempt subject start).run more
          ((processor.attempt subject start).setOut left) = some (ending, final) :=
        Attempt.run_mono ran enough
      rw [executed, later, ← free, ← reported]
      rfl

theorem exists_judges
    (compiles : fragment.Compiles processor.program.entry granularity processor.program)
    (free : processor.busy = false) (same : subject.granularity = granularity) :
    ∃ fuel verdict after, processor.Judges subject fuel verdict after := by
  have decides : ∀ start, ∃ fuel result, subject.covers start = true →
      result.LiesOnward subject processor.program.entry start ∧
        ∃ after : State → State, ∀ left more, fuel ≤ more →
          { processor with state := left }.execute more subject start processor.program.entry =
            some (.ok result, { processor with state := after left }) := by
    intro start
    cases covered : subject.covers start with
    | false => exact ⟨0, .failed 0, nofun⟩
    | true =>
        obtain ⟨fuel, result, decided⟩ := execute_decides compiles free same covered
        exact ⟨fuel, result, fun _ => decided⟩
  choose fuel verdict onward after executed using decides
  -- Only finitely many starts lie within the limits, so one fuel does for all of them.
  refine ⟨(Finset.range (subject.upper + 1)).sup fuel, verdict,
    fun left start =>
      if covered : subject.covers start = true then after start covered left else left,
    ?_, onward⟩
  intro start covered left more enough
  have inside : start ∈ Finset.range (subject.upper + 1) := by
    rw [Finset.mem_range, Nat.lt_succ_iff]
    exact (Subject.covers_iff.mp covered).2
  simp only [covered, dif_pos]
  exact executed start covered left more (Nat.le_trans (Finset.le_sup inside) enough)

end Processor

end RegexMachine
