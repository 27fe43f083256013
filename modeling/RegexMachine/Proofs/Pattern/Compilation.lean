import Mathlib
import RegexMachine.Proofs.Machine.Acceptance
import RegexMachine.Proofs.Pattern.Emission
import RegexMachine.Proofs.Pattern.Realization
import RegexMachine.Rune.Repertoire

/-! # Compiled programs

A compiled program is valid, holds the instructions of its fragment from the
first address on and accepts behind them. Running it gives the preferred
outcome of the fragment, or no match if there is none. -/

namespace RegexMachine

namespace Fragment

variable [CharacterData]

structure Compiles (fragment : Fragment) (entry : Direction) (granularity : Granularity)
    (program : Program) : Prop where
  valid : program.Valid
  placed : ∃ last, fragment.Placed program entry 0 last 0 ∧
    program.instructions[last]? = some .accept
  groups : 0 < program.captureCount
  entry : program.entry = entry
  granularity : program.granularity = granularity

theorem compiles {fragment : Fragment} {entry : Direction} {granularity : Granularity}
    {program : Program} (compiled : fragment.compile entry granularity = .ok program) :
    fragment.Compiles entry granularity program := by
  obtain ⟨after, encoded⟩ : ∃ after,
      (do fragment.encode entry; Encoder.finish) (Encoder.new entry granularity) =
        .ok program after := by
    simp only [compile] at compiled
    split at compiled
    · next found =>
        cases compiled
        exact ⟨_, found⟩
    · cases compiled
  rcases Encoder.bind_eq_ok.mp encoded with ⟨_, ending, encodes, finishes⟩
  rcases Encoder.bind_eq_ok.mp encodes with ⟨_, middle, emitted, accepts⟩
  rcases Encoder.discard_append_eq_ok.mp accepts with ⟨-, rfl⟩
  rcases Encoder.sound_of_finish finishes with ⟨rfl, sound⟩
  have appended := Encoder.Advances.append middle .accept
  rcases fragment.emits entry _ middle emitted with ⟨grown, places⟩
  have prolongs := appended.prolongs.trans grown
  exact ⟨Program.defect?_eq_none_iff.mp sound,
    ⟨middle.address, places _ appended.prolongs 0 (Nat.zero_le _),
      Encoder.appended_stays (.refl _)⟩, prolongs.groups, prolongs.entry,
    prolongs.granularity⟩

end Fragment

namespace Attempt

variable {attempt : Attempt} {fragment : Fragment} {first : Outcome} {rest : List Outcome}

variable [CharacterData]

def outcomesOf (attempt : Attempt) (fragment : Fragment) : List Outcome :=
  fragment.outcomes attempt.subject attempt.program.entry (.opening attempt.start)

omit [CharacterData] in
theorem outcome_setOut (attempt : Attempt) (left : State) :
    (attempt.setOut left).outcome = .opening attempt.start := by
  apply Outcome.ext
  · rfl
  · funext group
    exact left.journal.held_reset _ _ (.groupStart group)
  · funext group
    exact left.journal.held_reset _ _ (.groupEnd group)

section

variable {granularity : Granularity} {entry : Direction} (unbounded : attempt.budget = 0)
  (compiles : fragment.Compiles attempt.program.entry granularity attempt.program)
  (left : State)
include unbounded compiles

/-- A run of a compiled program yields the outcomes of its fragment. -/
theorem yields_compiled :
    ∃ last, attempt.program.instructions[last]? = some .accept ∧
      attempt.Yields last 0 .empty (attempt.setOut left).journal (attempt.setOut left)
        (attempt.outcomesOf fragment) := by
  rcases compiles.placed with ⟨last, placed, accepts⟩
  have yields := fragment.realizes unbounded compiles.valid _ _ _ _ placed
    (attempt.setOut left) rfl (left.journal.sized_reset _ _)
  rw [outcome_setOut] at yields
  exact ⟨last, accepts, yields⟩

theorem ends_noMatch (missing : attempt.outcomesOf fragment = []) :
    ∃ final, attempt.Ends (attempt.setOut left) (.ok .noMatch) final := by
  rcases yields_compiled unbounded compiles left with ⟨last, -, yields⟩
  rw [missing] at yields
  cases yields with
  | none falls =>
      rcases falls with ⟨failing, failed, path, turned, empty, -⟩
      refine ⟨failed, failing, path, turned.trans ?_⟩
      have back : failed.backtrack? = none := by
        simp only [State.backtrack?, empty, SaveStack.pop?_empty]
      rw [resolve, back]

theorem ends_accepted (found : attempt.outcomesOf fragment = first :: rest) :
    ∃ final, attempt.Ends (attempt.setOut left) (.ok .accepted) final ∧
      final.outcome = first ∧ final.journal.groups = attempt.program.captureCount := by
  rcases yields_compiled unbounded compiles left with ⟨last, accepts, yields⟩
  rw [found] at yields
  cases yields with
  | @found _ here _ path arrived _ =>
      have sized : here.journal.Sized attempt.program.captureCount
          attempt.program.counterCount :=
        arrived.follows.extension.sized.mpr (left.journal.sized_reset _ _)
      rw [← arrived.address] at accepts
      have turned := turn_of_fetched (exhausted_of_unbounded unbounded here) accepts
      exact ⟨here.counted, ⟨here, path, turned⟩, rfl, sized.groups_eq⟩

end

end Attempt

namespace Processor

variable {processor : Processor} {subject : Subject} {start : Nat} {fragment : Fragment}
  {entry : Direction} {granularity : Granularity}

section

variable [CharacterData]

theorem execute_compiled
    (compiled : fragment.compile entry granularity = .ok processor.program)
    (free : processor.busy = false) (unbounded : processor.options.budget = 0)
    (admitted : (processor.attempt subject start).Admitted) :
    ∃ fuel result after, (∀ more, fuel ≤ more →
        processor.execute more subject start entry = some (.ok result, after)) ∧
      match fragment.outcomes subject entry (.opening start) with
      | [] => result.status = .noMatch
      | first :: _ => result.Reports first start processor.program.captureCount := by
  have compiles := Fragment.compiles compiled
  have same := compiles.entry
  subst same
  have list : fragment.outcomes subject processor.program.entry (.opening start) =
      (processor.attempt subject start).outcomesOf fragment := rfl
  rw [list]
  cases found : (processor.attempt subject start).outcomesOf fragment with
  | nil =>
      rcases Attempt.ends_noMatch unbounded compiles processor.state found with
        ⟨final, ends⟩
      rcases execute_of_ends free admitted ends with ⟨fuel, executed⟩
      exact ⟨fuel, _, _, executed, rfl⟩
  | cons first rest =>
      rcases Attempt.ends_accepted unbounded compiles processor.state found with
        ⟨final, ends, reached, groups⟩
      rcases execute_of_ends free admitted ends with ⟨fuel, executed⟩
      have nonempty : 0 < final.journal.groups := by
        rw [groups]
        exact compiles.groups
      rcases Attempt.result_accepted nonempty with ⟨result, reported, reports⟩
      rw [reached, groups] at reports
      rw [reported] at executed
      exact ⟨fuel, result, _, executed, reports⟩

/-- Executing a compiled program without a budget ends, however often its loops
may run. It finds no match just if the fragment has no outcome, and otherwise
reports the position and the groups of the first one. -/
theorem execute_eq_first_outcome
    (compiled : fragment.compile entry granularity = .ok processor.program)
    (free : processor.busy = false) (unbounded : processor.options.budget = 0)
    (admitted : (processor.attempt subject start).Admitted) :
    ∃ fuel result after, (∀ more, fuel ≤ more →
        processor.execute more subject start entry = some (.ok result, after)) ∧
      (result.status = .noMatch ↔
        fragment.outcomes subject entry (.opening start) = []) ∧
      ∀ first rest, fragment.outcomes subject entry (.opening start) = first :: rest →
        result.Reports first start processor.program.captureCount := by
  rcases execute_compiled compiled free unbounded admitted with
    ⟨fuel, result, after, executed, agrees⟩
  refine ⟨fuel, result, after, executed, ?_⟩
  cases found : fragment.outcomes subject entry (.opening start) with
  | nil =>
      rw [found] at agrees
      exact ⟨iff_of_true agrees rfl, nofun⟩
  | cons first rest =>
      rw [found] at agrees
      refine ⟨iff_of_false ?_ nofun, ?_⟩
      · rw [agrees.accepted]
        nofun
      · intro _ _ equal
        cases equal
        exact agrees

def leadingRun : Fragment :=
  .sequence [.capture 1 (.repetition .greedy 0 Fragment.unbounded (.literal #[0x61] .none)),
    .literal #[0x62] .none]

def leadingRunner : Processor where
  program := (leadingRun.compile .forward .codePoint).toOption.getD {}
  options := {}

end

open scoped Repertoire in
theorem leadingRunner_captures :
    ∃ fuel result after,
      leadingRunner.execute fuel (.whole (.byUnits #[0x61, 0x61, 0x62]) .codePoint) 0
        .forward = some (.ok result, after) ∧
      result.status = .accepted ∧ result.captures.groups[1]? = some (some ⟨0, 2⟩) := by
  have compiled : leadingRun.compile .forward .codePoint = .ok leadingRunner.program := by
    cbv
  have admitted : (leadingRunner.attempt
      (.whole (.byUnits #[0x61, 0x61, 0x62]) .codePoint) 0).Admitted :=
    ⟨by cbv, rfl, fun clusters => by cases clusters⟩
  have captured : ((leadingRun.outcomes
      (.whole (.byUnits #[0x61, 0x61, 0x62]) .codePoint) .forward (.opening 0)).head?.map
        (·.spanOf 1)) = some (some ⟨0, 2⟩) := by
    cbv
  rcases execute_eq_first_outcome compiled rfl rfl admitted with
    ⟨fuel, result, after, executed, -, reports⟩
  rcases Option.map_eq_some_iff.mp captured with ⟨first, head, span⟩
  rcases List.head?_eq_some_iff.mp head with ⟨rest, list⟩
  have reported := reports first rest list
  have groups : 1 < leadingRunner.program.captureCount := by cbv
  exact ⟨fuel, result, after, executed fuel (Nat.le_refl _), reported.accepted,
    (reported.others 1 Nat.one_pos groups).trans (congrArg some span)⟩

end Processor

end RegexMachine
