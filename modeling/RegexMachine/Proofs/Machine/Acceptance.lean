import RegexMachine.Proofs.Machine.Bounds
import RegexMachine.Proofs.Machine.Composition
import RegexMachine.Rune.Repertoire

/-! # What an accepting attempt reports

The table of an accepted match is made of the raw registers after the run. It has a span
for the whole match and one for each group with both ends in order, all of them within the
limits. Only a program without any group has no place for the whole match. -/

namespace RegexMachine

structure MatchResult.Reports (result : MatchResult) (outcome : Outcome)
    (start groups : Nat) : Prop where
  accepted : result.status = .accepted
  size : result.captures.size = groups
  whole : result.captures.groups[0]? =
    some (some ⟨min start outcome.position, max start outcome.position⟩)
  others : ∀ group, 0 < group → group < groups →
    result.captures.groups[group]? = some (outcome.spanOf group)

/-- The result reports an accepted match from a start to a last position, with a table
for so many groups. All that they have captured lies within the limits. -/
structure MatchResult.Complete (result : MatchResult) (subject : Subject)
    (groups start last : Nat) : Prop where
  accepted : result.status = .accepted
  size : result.captures.size = groups
  whole : result.captures.groups[0]? = some (some ⟨min start last, max start last⟩)
  within : ∀ (group : Nat) (span : Span),
    result.captures.groups[group]? = some (some span) →
      subject.lower ≤ span.first ∧ span.first ≤ span.last ∧ span.last ≤ subject.upper

namespace Attempt

variable {attempt : Attempt} {state final : State}

theorem result_accepted (nonempty : 0 < final.journal.groups) :
    ∃ result, attempt.result (.ok .accepted) final = .ok result ∧
      result.Reports final.outcome attempt.start final.journal.groups := by
  have fits : 0 < ((Array.range final.journal.groups).map final.journal.spanOf).size := by
    simpa using nonempty
  refine ⟨⟨.accepted, ⟨((Array.range final.journal.groups).map
      final.journal.spanOf).setIfInBounds 0
        (some ⟨min attempt.start final.position, max attempt.start final.position⟩)⟩,
      final.steps⟩, ?_, rfl, ?_, ?_, ?_⟩
  · simp only [result, Journal.toTable, CaptureTable.assign, fits, if_true]
    rfl
  · simp [CaptureTable.size]
  · simp [nonempty, State.outcome]
  · intro group positive below
    rw [Array.getElem?_setIfInBounds_ne (by omega)]
    simp [below, State.spanOf_outcome below]

theorem result_of_no_groups (attempt : Attempt) (none : final.journal.groups = 0) :
    attempt.result (.ok .accepted) final = .error .outsideTable := by
  have full : ¬0 < ((Array.range final.journal.groups).map final.journal.spanOf).size := by
    simp [none]
  simp only [result, Journal.toTable, CaptureTable.assign, full, if_false]
  rfl

theorem Contains.spanOf (contains : attempt.Contains state) {group : Nat}
    (inside : group < state.journal.groups) {span : Span}
    (captured : state.journal.spanOf group = some span) :
    attempt.subject.lower ≤ span.first ∧ span.first ≤ span.last ∧
      span.last ≤ attempt.subject.upper := by
  obtain ⟨left, right, ordered⟩ := Journal.spanOf_eq_some_iff.mp captured
  have first : attempt.subject.covers span.first = true :=
    contains.captures.registers (.groupStart group) inside _ left
  have last : attempt.subject.covers span.last = true :=
    contains.captures.registers (.groupEnd group) inside _ right
  exact ⟨(Subject.covers_iff.mp first).1, ordered, (Subject.covers_iff.mp last).2⟩

theorem Contains.complete (contains : attempt.Contains state) {result : MatchResult}
    {groups : Nat} (admitted : attempt.Admitted)
    (reports : result.Reports state.outcome attempt.start groups) :
    result.Complete attempt.subject groups attempt.start state.position where
  accepted := reports.accepted
  size := reports.size
  whole := reports.whole
  within group span found := by
    have start := Subject.covers_iff.mp admitted.covered
    have position := Subject.covers_iff.mp contains.position
    by_cases zero : group = 0
    · subst zero
      rw [reports.whole] at found
      cases found
      simp only [State.outcome]
      omega
    · have below : group < groups := by
        rw [← reports.size]
        exact (Array.getElem?_eq_some_iff.mp found).1
      rw [reports.others group (Nat.pos_of_ne_zero zero) below] at found
      have captured := Option.some.inj found
      have inside := State.lt_groups_of_spanOf_outcome captured
      rw [State.spanOf_outcome inside] at captured
      exact contains.spanOf inside captured

end Attempt

namespace Processor

variable {processor : Processor} {subject : Subject} {start : Nat} {state : State}

section

variable [CharacterData]

/-- Whenever an admitted attempt at a validated program comes to accept, the execution ends
there. It reports a complete table just if the program has a group, and without one it is
stopped by a fault. -/
theorem execute_complete_iff (validated : processor.program.validate = .ok ())
    (free : processor.busy = false)
    (admitted : (processor.attempt subject start).Admitted)
    (path : (processor.attempt subject start).Reaches
      ((processor.attempt subject start).setOut processor.state) state)
    (unexhausted : (processor.attempt subject start).exhausted state = false)
    (accepts : processor.program.instructions[state.address]? = some .accept) :
    ∃ fuel report after, (∀ more, fuel ≤ more →
        processor.execute more subject start processor.program.entry = some (report, after)) ∧
      ((∃ result, report = .ok result ∧
          result.Complete subject processor.program.captureCount start state.position) ↔
        processor.program.captureCount ≠ 0) ∧
      (processor.program.captureCount = 0 → report = .error .outsideTable) := by
  have valid := Program.validate_eq_ok_iff.mp validated
  have bounds := (Attempt.Bounds.setOut valid admitted processor.state).reaches valid path
  have groups : state.counted.journal.groups = processor.program.captureCount :=
    bounds.sized.groups_eq
  have done : (processor.attempt subject start).turn state =
      .done (.ok .accepted) state.counted :=
    Attempt.turn_of_fetched unexhausted accepts
  obtain ⟨fuel, executed⟩ := execute_of_ends free admitted ⟨state, path, done⟩
  refine ⟨fuel, _, _, executed, ?_⟩
  by_cases none : processor.program.captureCount = 0
  · have stopped := (processor.attempt subject start).result_of_no_groups (groups.trans none)
    rw [stopped]
    exact ⟨iff_of_false nofun (not_not_intro none), fun _ => rfl⟩
  · have nonempty : 0 < state.counted.journal.groups := by
      rw [groups]
      exact Nat.pos_of_ne_zero none
    obtain ⟨result, reported, reports⟩ : ∃ result,
        (processor.attempt subject start).result (.ok .accepted) state.counted = .ok result ∧
          result.Reports state.counted.outcome start state.counted.journal.groups :=
      Attempt.result_accepted nonempty
    rw [groups] at reports
    have complete := bounds.toContains.complete admitted reports
    exact ⟨iff_of_true ⟨result, reported, complete⟩ none, fun zero => absurd zero none⟩

def groupless : Processor where
  program := { instructions := #[.accept], captureCount := 0 }
  options := {}

end

open scoped Repertoire in
theorem groupless_outsideTable :
    ∃ fuel after, groupless.execute fuel (.whole (.byUnits #[]) .codePoint) 0 .forward =
      some (.error .outsideTable, after) := by
  have validated : groupless.program.validate = .ok () := by cbv
  have admitted : (groupless.attempt (.whole (.byUnits #[]) .codePoint) 0).Admitted :=
    ⟨rfl, rfl, fun clusters => by cases clusters⟩
  obtain ⟨fuel, report, after, executed, -, stopped⟩ :=
    execute_complete_iff validated rfl admitted .refl rfl rfl
  have faulty := stopped rfl
  subst faulty
  exact ⟨fuel, after, executed fuel (Nat.le_refl _)⟩

end Processor

end RegexMachine
