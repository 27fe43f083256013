import RegexMachine.Proofs.Machine.Bounds
import RegexMachine.Proofs.Machine.Composition

/-! # Budgets

Every turn counts one instruction, so an attempt that comes to an end does so after as many
turns as it counts in its last state. A budget is compared with that count before each
turn, and does nothing else. So an attempt either ends as it does without its budget, or
it is broken off after just as many instructions as the budget allows. -/

namespace RegexMachine

namespace Attempt

variable {attempt : Attempt} {state next final : State} {status : MatchStatus}
  {ending : Except Fault MatchStatus} {count fuel : Nat}

/-! ## Counting turns -/

variable [CharacterData]

/-- The attempt ends after so many turns from the state: fuel for them is enough, and
less is not. -/
def EndsIn (attempt : Attempt) (state : State) (count : Nat)
    (ending : Except Fault MatchStatus) (final : State) : Prop :=
  ∀ fuel, attempt.run fuel state = if count ≤ fuel then some (ending, final) else none

theorem endsIn_one (done : attempt.turn state = .done ending final) :
    attempt.EndsIn state 1 ending final := by
  intro fuel
  cases fuel with
  | zero => rfl
  | succ fuel => rw [if_pos (by omega), run_of_done done]

theorem EndsIn.head (step : attempt.Next state next)
    (ends : attempt.EndsIn next count ending final) :
    attempt.EndsIn state (count + 1) ending final := by
  intro fuel
  cases fuel with
  | zero => rfl
  | succ fuel =>
      rw [run_of_next step, ends]
      simp only [Nat.add_le_add_iff_right]

theorem Next.steps (step : attempt.Next state next) (valid : attempt.program.Valid)
    (bounds : attempt.Bounds state) : next.steps = state.steps + 1 := by
  obtain ⟨instruction, -, -, proceeds | back⟩ := step.cases valid bounds.sized bounds.address
  · cases proceeds <;> rfl
  · obtain ⟨_, _, -, rfl⟩ := State.backtrack?_eq_some back
    rfl

theorem Reaches.steps_le (path : attempt.Reaches state next) (valid : attempt.program.Valid)
    (bounds : attempt.Bounds state) : state.steps ≤ next.steps := by
  induction path with
  | refl => exact Nat.le_refl _
  | tail path step induction =>
      rw [step.steps valid (bounds.reaches valid path)]
      exact Nat.le_succ_of_le induction

theorem steps_of_done (done : attempt.turn state = .done (.ok status) final)
    (valid : attempt.program.Valid) (bounds : attempt.Bounds state)
    (unbounded : attempt.budget = 0) : final.steps = state.steps + 1 := by
  rcases turn_cases valid bounds.sized bounds.address with
    ⟨exhausted, -⟩ | ⟨instruction, effect, -, -, allows, turned⟩
  · rw [exhausted_of_unbounded unbounded] at exhausted
    cases exhausted
  · rw [turned] at done
    cases allows with
    | proceed => cases done
    | stop => cases done
    | accept =>
        cases done
        rfl
    | fail =>
        rw [resolve] at done
        split at done
        · cases done
        · cases done
          rfl

theorem Ends.exists_endsIn (ends : attempt.Ends state ending final)
    (valid : attempt.program.Valid) (bounds : attempt.Bounds state)
    (unbounded : attempt.budget = 0) :
    ∃ count, attempt.EndsIn state count ending final ∧
      ∀ status, ending = .ok status → final.steps = state.steps + count := by
  obtain ⟨last, path, done⟩ := ends
  induction path using Relation.ReflTransGen.head_induction_on with
  | refl =>
      refine ⟨1, endsIn_one done, ?_⟩
      rintro status rfl
      exact steps_of_done done valid bounds unbounded
  | @head state next step _ induction =>
      obtain ⟨count, ends, counts⟩ := induction (bounds.turn valid step)
      refine ⟨count + 1, ends.head step, fun status regular => ?_⟩
      rw [counts status regular, step.steps valid bounds]
      omega

/-- The fuel that a run needs is the number of instructions that it counts. -/
theorem Ends.run_eq (ends : attempt.Ends state (.ok status) final)
    (valid : attempt.program.Valid) (bounds : attempt.Bounds state)
    (unbounded : attempt.budget = 0) (fuel : Nat) :
    attempt.run fuel state =
      if final.steps ≤ state.steps + fuel then some (.ok status, final) else none := by
  obtain ⟨count, ends, counts⟩ := ends.exists_endsIn valid bounds unbounded
  rw [ends fuel, counts status rfl]
  simp only [Nat.add_le_add_iff_left]

/-! ## Running out of the budget -/

def unbounded (attempt : Attempt) : Attempt := { attempt with budget := 0 }

theorem turn_unbounded (unexhausted : attempt.exhausted state = false) :
    attempt.unbounded.turn state = attempt.turn state := by
  have never : attempt.unbounded.exhausted state = false := exhausted_of_unbounded rfl state
  rw [turn, turn, never, unexhausted]
  rfl

theorem turn_exhausted (exhausted : attempt.exhausted state = true) :
    attempt.turn state = .done (.ok .budgetExceeded) state := by
  rw [turn, if_pos exhausted]

omit [CharacterData] in
theorem exhausted_of_spare (spare : state.steps < attempt.budget) :
    attempt.exhausted state = false := by
  simp only [exhausted, Bool.and_eq_false_iff, decide_eq_false_iff_not]
  omega

theorem Ends.budgeted (ends : attempt.unbounded.Ends state ending final) :
    attempt.Ends state ending final ∨ ∃ last, attempt.Ends state (.ok .budgetExceeded) last := by
  obtain ⟨last, path, done⟩ := ends
  induction path using Relation.ReflTransGen.head_induction_on with
  | refl =>
      cases exhausted : attempt.exhausted last with
      | true => exact .inr ⟨last, last, .refl, turn_exhausted exhausted⟩
      | false =>
          rw [turn_unbounded exhausted] at done
          exact .inl ⟨last, .refl, done⟩
  | @head state next step _ induction =>
      cases exhausted : attempt.exhausted state with
      | true => exact .inr ⟨state, state, .refl, turn_exhausted exhausted⟩
      | false =>
          rw [Next, turn_unbounded exhausted] at step
          have step : attempt.Next state next := step
          exact induction.imp step.reaches.ends (Exists.imp fun _ => step.reaches.ends)

theorem Ends.unbounded {ending : Except Fault MatchStatus}
    (ends : attempt.Ends state ending final) (broken : ending ≠ .ok .budgetExceeded) :
    attempt.unbounded.Ends state ending final := by
  obtain ⟨last, path, done⟩ := ends
  induction path using Relation.ReflTransGen.head_induction_on with
  | refl =>
      refine ⟨last, .refl, ?_⟩
      cases exhausted : attempt.exhausted last with
      | true =>
          rw [turn_exhausted exhausted] at done
          cases done
          exact absurd rfl broken
      | false => rwa [turn_unbounded exhausted]
  | @head state next step _ induction =>
      have onward : attempt.unbounded.Next state next := by
        rwa [Next, turn_unbounded (step.unexhausted)]
      exact onward.reaches.ends induction

theorem run_unbounded (valid : attempt.program.Valid) (bounds : attempt.Bounds state)
    (spare : state.steps + fuel ≤ attempt.budget) :
    attempt.run fuel state = attempt.unbounded.run fuel state := by
  induction fuel generalizing state with
  | zero => rfl
  | succ fuel induction =>
      have left : state.steps < attempt.budget := by omega
      have same := turn_unbounded (exhausted_of_spare left)
      rw [run, run, same]
      cases turned : attempt.turn state with
      | done ending final => rfl
      | next next =>
          have step : attempt.Next state next := turned
          have counted := step.steps valid bounds
          exact induction (bounds.turn valid step) (by omega)

theorem run_exceeded (valid : attempt.program.Valid) (bounds : attempt.Bounds state)
    (positive : 0 < attempt.budget) (spent : state.steps + fuel = attempt.budget)
    (onward : attempt.unbounded.run fuel state = none) :
    ∃ last, attempt.run (fuel + 1) state = some (.ok .budgetExceeded, last) ∧
      last.steps = attempt.budget := by
  induction fuel generalizing state with
  | zero =>
      have exhausted : attempt.exhausted state = true := by
        simp only [exhausted, Bool.and_eq_true, bne_iff_ne, decide_eq_true_eq]
        omega
      exact ⟨state, run_of_done (turn_exhausted exhausted) 0, spent⟩
  | succ fuel induction =>
      have left : state.steps < attempt.budget := by omega
      have same := turn_unbounded (exhausted_of_spare left)
      rw [run, same] at onward
      cases turned : attempt.turn state with
      | done ending final =>
          rw [turned] at onward
          cases onward
      | next next =>
          rw [turned] at onward
          have step : attempt.Next state next := turned
          have counted := step.steps valid bounds
          obtain ⟨last, ran, steps⟩ := induction (bounds.turn valid step) (by omega) onward
          exact ⟨last, (run_of_next step _).trans ran, steps⟩

theorem EndsIn.within (ends : attempt.unbounded.EndsIn state count ending final)
    (valid : attempt.program.Valid) (bounds : attempt.Bounds state)
    (spare : state.steps + count ≤ attempt.budget) :
    attempt.EndsIn state count ending final := by
  intro fuel
  by_cases enough : count ≤ fuel
  · have ran := run_unbounded valid bounds spare
    rw [ends, if_pos (Nat.le_refl _)] at ran
    rw [if_pos enough, run_mono ran enough]
  · rw [run_unbounded valid bounds (by omega), ends]

theorem endsIn_exceeded (valid : attempt.program.Valid) (bounds : attempt.Bounds state)
    (positive : 0 < attempt.budget) (spent : state.steps + fuel = attempt.budget)
    (onward : attempt.unbounded.run fuel state = none) :
    ∃ last, attempt.EndsIn state (fuel + 1) (.ok .budgetExceeded) last ∧
      last.steps = attempt.budget := by
  obtain ⟨last, ran, steps⟩ := run_exceeded valid bounds positive spent onward
  refine ⟨last, fun more => ?_, steps⟩
  by_cases enough : fuel + 1 ≤ more
  · rw [if_pos enough, run_mono ran enough]
  · rw [if_neg enough, run_unbounded valid bounds (by omega)]
    cases early : attempt.unbounded.run more state with
    | none => rfl
    | some found =>
        rw [run_mono early (show more ≤ fuel by omega)] at onward
        cases onward

/-- Either the attempt ends in the same way with and without its budget, or it goes on
beyond its budget and is broken off there. -/
theorem endsIn_or_exceeded (valid : attempt.program.Valid) (bounds : attempt.Bounds state)
    (positive : 0 < attempt.budget) (opening : state.steps = 0) :
    (∃ count ending final, count ≤ attempt.budget ∧
      attempt.unbounded.EndsIn state count ending final ∧
        attempt.EndsIn state count ending final) ∨
      attempt.unbounded.run attempt.budget state = none ∧
        ∃ last, attempt.EndsIn state (attempt.budget + 1) (.ok .budgetExceeded) last ∧
          last.steps = attempt.budget := by
  cases ran : attempt.unbounded.run attempt.budget state with
  | none =>
      exact .inr ⟨rfl, endsIn_exceeded valid bounds positive (by omega) ran⟩
  | some found =>
      obtain ⟨ending, final⟩ := found
      obtain ⟨count, ends, -⟩ := (ends_of_run ran).exists_endsIn valid ⟨⟨bounds.position,
        bounds.resumes, bounds.positions, bounds.heights, bounds.height, bounds.sized,
        bounds.captures⟩, bounds.address⟩ rfl
      have short : count ≤ attempt.budget := by
        by_contra beyond
        rw [ends attempt.budget, if_neg beyond] at ran
        cases ran
      exact .inl ⟨count, ending, final, short, ends, ends.within valid bounds (by omega)⟩

omit [CharacterData] in
theorem reported_of_result {found : MatchResult}
    (reported : attempt.result (.ok status) final = .ok found) :
    found.status = status ∧ found.steps = final.steps := by
  cases status with
  | noMatch =>
      cases reported
      exact ⟨rfl, rfl⟩
  | budgetExceeded =>
      cases reported
      exact ⟨rfl, rfl⟩
  | accepted =>
      rw [result] at reported
      change Except.bind (final.journal.toTable _ _) _ = _ at reported
      rw [Except.bind.eq_def] at reported
      split at reported
      · cases reported
      · cases reported
        exact ⟨rfl, rfl⟩

end Attempt

namespace Processor

variable {processor after : Processor} {subject : Subject} {start : Nat}
  {direction : Direction} {report : Except Fault MatchResult} {count : Nat}

def budgeted (processor : Processor) (budget : Nat) : Processor :=
  processor.withOptions { processor.options with budget }

variable [CharacterData]

def EndsAfter (processor : Processor) (subject : Subject) (start : Nat)
    (direction : Direction) (count : Nat) (report : Except Fault MatchResult)
    (after : Processor) : Prop :=
  ∀ fuel, processor.execute fuel subject start direction =
    if count ≤ fuel then some (report, after) else none

theorem EndsAfter.unique {other : Nat} {another : Except Fault MatchResult}
    {later : Processor} (ends : processor.EndsAfter subject start direction count report after)
    (again : processor.EndsAfter subject start direction other another later) :
    count = other ∧ report = another ∧ after = later := by
  have first := (ends count).symm.trans (again count)
  have second := (ends other).symm.trans (again other)
  rw [if_pos (Nat.le_refl _)] at first second
  have below : other ≤ count := by
    by_contra above
    rw [if_neg above] at first
    cases first
  have above : count ≤ other := by
    by_contra below
    rw [if_neg below] at second
    cases second
  rw [if_pos below] at first
  cases first
  exact ⟨Nat.le_antisymm above below, rfl, rfl⟩

theorem EndsAfter.of_endsIn {ending : Except Fault MatchStatus} {final : State}
    (ends : (processor.attempt subject start).EndsIn
      ((processor.attempt subject start).setOut processor.state) count ending final)
    (free : processor.busy = false) (admitted : (processor.attempt subject start).Admitted) :
    processor.EndsAfter subject start processor.program.entry count
      ((processor.attempt subject start).result ending final)
      { processor with state := final, busy := false } := by
  intro fuel
  rw [execute_of_admitted free admitted, ends]
  split <;> rfl

theorem endsAfter_zero_or_admitted (processor : Processor) (subject : Subject) (start : Nat)
    (direction : Direction) :
    (∃ report, (∀ result, report = .ok result → result.steps = 0) ∧
      ∀ budget, (processor.budgeted budget).EndsAfter subject start direction 0 report
        (processor.budgeted budget)) ∨
    processor.busy = false ∧ direction = processor.program.entry ∧
      (processor.attempt subject start).Admitted := by
  cases busy : processor.busy with
  | true =>
      refine .inl ⟨.error .reentrantMatch, nofun, fun budget fuel => ?_⟩
      have busy : (processor.budgeted budget).busy = true := busy
      exact execute_of_busy busy fuel direction
  | false =>
      cases refusal : processor.refusal? subject start direction with
      | some refused =>
          refine .inl ⟨refused, fun result regular => ?_, fun budget fuel => ?_⟩
          · subst regular
            rw [eq_failed_of_refusal refusal]
            rfl
          · have free : (processor.budgeted budget).busy = false := busy
            exact execute_of_refusal free refusal fuel
      | none =>
          obtain ⟨direct, admitted⟩ := refusal?_eq_none_iff.mp refusal
          exact .inr ⟨rfl, direct, admitted⟩

omit [CharacterData] in
theorem admitted_budgeted (admitted : (processor.attempt subject start).Admitted)
    (budget : Nat) : ((processor.budgeted budget).attempt subject start).Admitted :=
  ⟨admitted.granularity, admitted.covered, admitted.boundary⟩

/-- Either the execution ends in the same way with and without a budget, or it goes on
beyond the budget and is broken off there. -/
theorem endsAfter_or_exceeded (valid : processor.program.Valid) {budget : Nat}
    (positive : 0 < budget) (subject : Subject) (start : Nat) (direction : Direction) :
    (∃ count report after, count ≤ budget ∧
      (processor.budgeted 0).EndsAfter subject start direction count report after ∧
        (processor.budgeted budget).EndsAfter subject start direction count report
          (after.budgeted budget)) ∨
      (processor.budgeted 0).execute budget subject start direction = none ∧
        ∃ after, (processor.budgeted budget).EndsAfter subject start direction (budget + 1)
          (.ok ⟨.budgetExceeded, .empty, budget⟩) after := by
  rcases processor.endsAfter_zero_or_admitted subject start direction with
    ⟨report, -, ends⟩ | ⟨free, rfl, admitted⟩
  · exact .inl ⟨0, report, _, Nat.zero_le _, ends 0, ends budget⟩
  · let unlimited := processor.budgeted 0
    let limited := processor.budgeted budget
    have unlimitedFree : unlimited.busy = false := free
    have limitedFree : limited.busy = false := free
    have unlimitedAdmitted := admitted_budgeted admitted 0
    have limitedAdmitted := admitted_budgeted admitted budget
    let attempt := limited.attempt subject start
    have bounds : attempt.Bounds (attempt.setOut processor.state) :=
      .setOut valid limitedAdmitted _
    rcases Attempt.endsIn_or_exceeded valid bounds positive rfl with
      ⟨count, ending, final, short, ends, within⟩ | ⟨onward, last, ends, steps⟩
    · exact .inl ⟨count, _, _, short, .of_endsIn ends unlimitedFree unlimitedAdmitted,
        .of_endsIn within limitedFree limitedAdmitted⟩
    · right
      have unended := execute_of_admitted unlimitedFree unlimitedAdmitted budget
      have ends := EndsAfter.of_endsIn ends limitedFree limitedAdmitted
      have reported : attempt.result (.ok .budgetExceeded) last =
          .ok ⟨.budgetExceeded, .empty, last.steps⟩ := rfl
      have spent : last.steps = budget := steps
      rw [reported, spent] at ends
      exact ⟨unended.trans (congrArg _ onward), _, ends⟩

theorem steps_eq_of_endsAfter (valid : processor.program.Valid) {result : MatchResult}
    (ends : (processor.budgeted 0).EndsAfter subject start direction count (.ok result)
      after) : result.steps = count := by
  rcases processor.endsAfter_zero_or_admitted subject start direction with
    ⟨report, uncounted, atOnce⟩ | ⟨free, rfl, admitted⟩
  · obtain ⟨rfl, regular, -⟩ := (atOnce 0).unique ends
    exact uncounted result regular
  · let unlimited := processor.budgeted 0
    have unlimitedFree : unlimited.busy = false := free
    have unlimitedAdmitted := admitted_budgeted admitted 0
    have executed := (ends count).trans (if_pos (Nat.le_refl _))
    have admission := execute_of_admitted unlimitedFree unlimitedAdmitted count
    obtain ⟨⟨ending, final⟩, ran, -⟩ :=
      Option.map_eq_some_iff.mp (admission.symm.trans executed)
    obtain ⟨turns, within, counts⟩ := (Attempt.ends_of_run ran).exists_endsIn valid
      (.setOut valid unlimitedAdmitted _) rfl
    obtain ⟨rfl, reported, -⟩ :=
      (EndsAfter.of_endsIn within unlimitedFree unlimitedAdmitted).unique ends
    cases ending with
    | error fault => cases reported
    | ok status =>
        rw [(Attempt.reported_of_result reported).2, counts status rfl]
        exact Nat.zero_add turns

structure Truncates (processor : Processor) (budget : Nat) (subject : Subject) (start : Nat)
    (direction : Direction) : Prop where
  /-- An execution that ends within the budget ends in the same way with it. -/
  within : ∀ count report after, count ≤ budget →
    (processor.budgeted 0).EndsAfter subject start direction count report after →
      (processor.budgeted budget).EndsAfter subject start direction count report
        (after.budgeted budget)
  /-- Any other execution, even one that never ends, is broken off after as many
  instructions as the budget allows. -/
  beyond : (¬∃ count report after, count ≤ budget ∧
      (processor.budgeted 0).EndsAfter subject start direction count report after) →
    ∃ after, (processor.budgeted budget).EndsAfter subject start direction (budget + 1)
      (.ok ⟨.budgetExceeded, .empty, budget⟩) after
  /-- The turns of an execution are the instructions that its result counts. -/
  counted : ∀ count result after,
    (processor.budgeted 0).EndsAfter subject start direction count (.ok result) after →
      result.steps = count

theorem truncates (valid : processor.program.Valid) {budget : Nat}
    (positive : 0 < budget) (subject : Subject) (start : Nat) (direction : Direction) :
    processor.Truncates budget subject start direction := by
  have dichotomy := endsAfter_or_exceeded valid positive subject start direction
  refine ⟨fun count report after short ends => ?_, fun never => ?_,
    fun count result after ends => steps_eq_of_endsAfter valid ends⟩
  · rcases dichotomy with ⟨other, _, _, -, unlimited, limited⟩ | ⟨unended, -⟩
    · obtain ⟨rfl, rfl, rfl⟩ := ends.unique unlimited
      exact limited
    · rw [ends budget, if_pos short] at unended
      cases unended
  · rcases dichotomy with ⟨count, report, after, short, ends, -⟩ | ⟨-, broken⟩
    · exact absurd ⟨count, report, after, short, ends⟩ never
    · exact broken

end Processor

end RegexMachine
