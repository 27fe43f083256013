import Mathlib.Logic.Relation
import RegexMachine.Machine.Processor

/-! # Runs

The states that an attempt passes through, and the end that it comes to. The
fuel of a run only has to suffice: an attempt that ends with some fuel ends in
the same way with more. -/

namespace RegexMachine

namespace Attempt

variable {attempt : Attempt} {state next final last : State}
  {ending : Except Fault MatchStatus}

variable [CharacterData]

def Next (attempt : Attempt) (state next : State) : Prop :=
  attempt.turn state = .next next

def Reaches (attempt : Attempt) : State → State → Prop :=
  Relation.ReflTransGen attempt.Next

def Ends (attempt : Attempt) (state : State) (ending : Except Fault MatchStatus)
    (final : State) : Prop :=
  ∃ last, attempt.Reaches state last ∧ attempt.turn last = .done ending final

theorem Next.reaches (step : attempt.Next state next) : attempt.Reaches state next :=
  .single step

theorem Next.unexhausted (step : attempt.Next state next) :
    attempt.exhausted state = false := by
  cases exhausted : attempt.exhausted state with
  | false => rfl
  | true =>
      rw [Next, turn, exhausted, if_pos rfl] at step
      cases step

theorem Reaches.ends (path : attempt.Reaches state next)
    (rest : attempt.Ends next ending final) : attempt.Ends state ending final := by
  rcases rest with ⟨last, onward, done⟩
  exact ⟨last, path.trans onward, done⟩

theorem run_of_next (step : attempt.Next state next) (fuel : Nat) :
    attempt.run (fuel + 1) state = attempt.run fuel next := by
  rw [run, step]

theorem run_of_done (done : attempt.turn state = .done ending final) (fuel : Nat) :
    attempt.run (fuel + 1) state = some (ending, final) := by
  rw [run, done]

theorem Ends.run (ends : attempt.Ends state ending final) :
    ∃ fuel, attempt.run fuel state = some (ending, final) := by
  rcases ends with ⟨last, path, done⟩
  induction path using Relation.ReflTransGen.head_induction_on with
  | refl => exact ⟨1, run_of_done done 0⟩
  | head step _ induction =>
      rcases induction with ⟨fuel, found⟩
      exact ⟨fuel + 1, (run_of_next step fuel).trans found⟩

theorem ends_of_run {fuel : Nat} (found : attempt.run fuel state = some (ending, final)) :
    attempt.Ends state ending final := by
  induction fuel generalizing state with
  | zero => simp [Attempt.run] at found
  | succ fuel induction =>
      rw [Attempt.run] at found
      split at found
      · next next step => exact (Next.reaches step).ends (induction found)
      · next last done =>
          cases found
          exact ⟨state, .refl, done⟩

theorem run_mono {fuel more : Nat} {found : Except Fault MatchStatus × State}
    (ends : attempt.run fuel state = some found) (enough : fuel ≤ more) :
    attempt.run more state = some found := by
  induction fuel generalizing state more with
  | zero => simp [Attempt.run] at ends
  | succ fuel induction =>
      obtain ⟨more, rfl⟩ : ∃ rest, more = rest + 1 := ⟨more - 1, by omega⟩
      rw [Attempt.run] at ends ⊢
      cases turned : attempt.turn state with
      | next next =>
          rw [turned] at ends
          exact induction ends (by omega)
      | done ending final =>
          rw [turned] at ends
          exact ends

theorem Ends.unique {other : Except Fault MatchStatus} {last : State}
    (ends : attempt.Ends state ending final) (again : attempt.Ends state other last) :
    ending = other ∧ final = last := by
  obtain ⟨fuel, ran⟩ := ends.run
  obtain ⟨more, reran⟩ := again.run
  have first := run_mono ran (Nat.le_max_left fuel more)
  have second := run_mono reran (Nat.le_max_right fuel more)
  cases first.symm.trans second
  exact ⟨rfl, rfl⟩

/-! ## Admission -/

structure Admitted (attempt : Attempt) : Prop where
  granularity : attempt.subject.granularity = attempt.program.granularity
  covered : attempt.subject.covers attempt.start = true
  boundary : attempt.subject.granularity = .grapheme →
    attempt.subject.isBoundary attempt.start = true

end Attempt

namespace Processor

variable {processor : Processor} {subject : Subject} {start : Nat}

theorem refusal?_eq_none_iff {direction : Direction} :
    processor.refusal? subject start direction = none ↔
      direction = processor.program.entry ∧
        (processor.attempt subject start).Admitted := by
  unfold refusal?
  constructor
  · intro unrefused
    split at unrefused
    · simp at unrefused
    · next sameDirection =>
        split at unrefused
        · simp at unrefused
        · next sameGranularity =>
            split at unrefused
            · simp at unrefused
            · next covered =>
                split at unrefused
                · simp at unrefused
                · next boundary =>
                    refine ⟨Decidable.not_not.mp sameDirection,
                      Decidable.not_not.mp sameGranularity, ?_, ?_⟩
                    · change subject.covers start = true
                      simpa using covered
                    · change subject.granularity = .grapheme →
                        subject.isBoundary start = true
                      simpa using boundary
  · intro ⟨sameDirection, sameGranularity, covered, boundary⟩
    simp only [attempt] at sameGranularity covered boundary
    rw [if_neg (by simpa using sameDirection), if_neg (by simpa using sameGranularity),
      if_neg (by simp [covered])]
    rw [if_neg]
    intro inside
    simp only [Bool.and_eq_true, beq_iff_eq, Bool.not_eq_true'] at inside
    rw [boundary inside.1] at inside
    simp at inside

theorem eq_failed_of_refusal {direction : Direction} {result : MatchResult}
    (refusal : processor.refusal? subject start direction = some (.ok result)) :
    result = .failed 0 := by
  unfold refusal? at refusal
  split at refusal
  · cases refusal
  · split at refusal
    · cases refusal
    · split at refusal
      · cases refusal
        rfl
      · split at refusal
        · cases refusal
          rfl
        · cases refusal

variable [CharacterData]

theorem execute_of_admitted (free : processor.busy = false)
    (admitted : (processor.attempt subject start).Admitted) (fuel : Nat) :
    processor.execute fuel subject start processor.program.entry =
      ((processor.attempt subject start).run fuel
          ((processor.attempt subject start).setOut processor.state)).map
        fun (ending, state) =>
          ((processor.attempt subject start).result ending state,
            { processor with state, busy := false }) := by
  have unrefused : { processor with busy := true }.refusal? subject start
      processor.program.entry = none :=
    refusal?_eq_none_iff.mpr ⟨rfl, admitted⟩
  simp only [execute, exclusively, free, Bool.false_eq_true, if_false, conduct, unrefused]
  have same : ({ processor with busy := true } : Processor).attempt subject start =
      processor.attempt subject start := rfl
  rw [same]
  cases (processor.attempt subject start).run fuel
    ((processor.attempt subject start).setOut processor.state) <;> rfl

theorem execute_of_busy (busy : processor.busy = true) (fuel : Nat) (direction : Direction) :
    processor.execute fuel subject start direction =
      some (.error .reentrantMatch, processor) := by
  simp only [execute, exclusively, busy, if_true]

theorem execute_of_refusal (free : processor.busy = false) {direction : Direction}
    {result : Except Fault MatchResult}
    (refused : processor.refusal? subject start direction = some result) (fuel : Nat) :
    processor.execute fuel subject start direction = some (result, processor) := by
  have same : { processor with busy := true }.refusal? subject start direction =
      some result := refused
  simp only [execute, exclusively, free, conduct, same, Bool.false_eq_true, if_false,
    Option.map_some]
  rw [← free]

/-- What an execution has done if it comes to an end. -/
theorem execute_cases {fuel : Nat} {direction : Direction} {result : Except Fault MatchResult}
    {after : Processor}
    (executed : processor.execute fuel subject start direction = some (result, after)) :
    result = .error .reentrantMatch ∨
      processor.refusal? subject start direction = some result ∨
        (processor.attempt subject start).Admitted ∧ ∃ ending final,
          (processor.attempt subject start).Ends
            ((processor.attempt subject start).setOut processor.state) ending final ∧
              result = (processor.attempt subject start).result ending final := by
  cases busy : processor.busy with
  | true =>
      left
      rw [execute_of_busy busy] at executed
      cases executed
      rfl
  | false =>
      right
      cases refusal : processor.refusal? subject start direction with
      | some refused =>
          left
          rw [execute_of_refusal busy refusal] at executed
          cases executed
          rfl
      | none =>
          right
          obtain ⟨rfl, admitted⟩ := refusal?_eq_none_iff.mp refusal
          rw [execute_of_admitted busy admitted, Option.map_eq_some_iff] at executed
          obtain ⟨⟨ending, final⟩, ran, same⟩ := executed
          cases same
          exact ⟨admitted, ending, final, Attempt.ends_of_run ran, rfl⟩

theorem execute_of_ends (free : processor.busy = false)
    (admitted : (processor.attempt subject start).Admitted)
    {ending : Except Fault MatchStatus} {final : State}
    (ends : (processor.attempt subject start).Ends
      ((processor.attempt subject start).setOut processor.state) ending final) :
    ∃ fuel, ∀ more, fuel ≤ more →
      processor.execute more subject start processor.program.entry =
        some ((processor.attempt subject start).result ending final,
          { processor with state := final, busy := false }) := by
  rcases ends.run with ⟨fuel, ran⟩
  refine ⟨fuel, fun more enough => ?_⟩
  rw [execute_of_admitted free admitted, Attempt.run_mono ran enough]
  rfl

/-- More fuel never changes what an execution answers. -/
theorem execute_mono {fuel more : Nat} {direction : Direction}
    {outcome : Except Fault MatchResult × Processor}
    (executed : processor.execute fuel subject start direction = some outcome)
    (enough : fuel ≤ more) :
    processor.execute more subject start direction = some outcome := by
  cases busy : processor.busy with
  | true =>
      rw [execute_of_busy busy] at executed ⊢
      exact executed
  | false =>
      cases refusal : processor.refusal? subject start direction with
      | some refused =>
          rw [execute_of_refusal busy refusal] at executed ⊢
          exact executed
      | none =>
          obtain ⟨rfl, admitted⟩ := refusal?_eq_none_iff.mp refusal
          rw [execute_of_admitted busy admitted, Option.map_eq_some_iff] at executed ⊢
          obtain ⟨found, ran, reported⟩ := executed
          exact ⟨found, Attempt.run_mono ran enough, reported⟩

end Processor

end RegexMachine
