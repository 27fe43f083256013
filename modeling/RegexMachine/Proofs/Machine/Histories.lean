import Mathlib
import RegexMachine.Proofs.Machine.Runs
import RegexMachine.Rune.Repertoire

/-! # Histories

A processor is used for one call after the other, and whatever state a call stops in
stays in the processor. No later call can tell: an attempt overwrites all of that state
as it sets out, every call leaves the processor free however it ends, and only the
options that were set last are passed on. -/

namespace RegexMachine

theorem Attempt.setOut_eq (attempt : Attempt) (left other : State) :
    attempt.setOut left = attempt.setOut other := rfl

/-- What can be asked of a processor. An execution is given its fuel. -/
inductive Call where
  | execute (fuel : Nat) (subject : Subject) (start : Nat) (direction : Direction)
  | executeText (fuel : Nat) (text : SegmentedText) (start : Nat) (direction : Direction)
  | setOptions (options : Options)

namespace Call

def options (call : Call) (before : Options) : Options :=
  match call with
  | .setOptions options => options
  | _ => before

def lastOptions (before : Options) (calls : List Call) : Options :=
  calls.foldl (fun options call => call.options options) before

end Call

namespace Processor

section

variable [CharacterData]

def perform (processor : Processor) :
    Call → Option (Option (Except Fault MatchResult) × Processor)
  | .execute fuel subject start direction =>
      (processor.execute fuel subject start direction).map fun (result, after) =>
        (some result, after)
  | .executeText fuel text start direction =>
      (processor.executeText fuel text start direction).map fun (result, after) =>
        (some result, after)
  | .setOptions options => some (none, processor.withOptions options)

def performAll (processor : Processor) :
    List Call → Option (List (Option (Except Fault MatchResult)) × Processor)
  | [] => some ([], processor)
  | call :: later => do
      let (answer, after) ← processor.perform call
      let (answers, last) ← after.performAll later
      return (answer :: answers, last)

/-- The processors differ at most in the states that were left in them. -/
structure Alike (left right : Processor) : Prop where
  program : left.program = right.program
  options : left.options = right.options
  busy : left.busy = right.busy

namespace Alike

variable {left right : Processor}

omit [CharacterData] in
theorem attempt_eq (alike : left.Alike right) (subject : Subject) (start : Nat) :
    left.attempt subject start = right.attempt subject start := by
  simp only [attempt, alike.program, alike.options]

omit [CharacterData] in
theorem refusal?_eq (alike : left.Alike right) (subject : Subject) (start : Nat)
    (direction : Direction) :
    left.refusal? subject start direction = right.refusal? subject start direction := by
  simp only [refusal?, alike.program]

theorem conduct_eq (alike : left.Alike right) (fuel : Nat) (subject : Subject) (start : Nat)
    (direction : Direction) :
    (left.conduct fuel subject start direction).map Prod.fst =
      (right.conduct fuel subject start direction).map Prod.fst := by
  simp only [conduct, alike.refusal?_eq, alike.attempt_eq,
    Attempt.setOut_eq _ left.state right.state]
  cases right.refusal? subject start direction with
  | some result => rfl
  | none =>
      cases (right.attempt subject start).run fuel
        ((right.attempt subject start).setOut right.state) with
      | none => rfl
      | some final => rfl

theorem execute_eq (alike : left.Alike right) (fuel : Nat) (subject : Subject) (start : Nat)
    (direction : Direction) :
    (left.execute fuel subject start direction).map Prod.fst =
      (right.execute fuel subject start direction).map Prod.fst := by
  have same := alike.busy
  cases busy : right.busy with
  | true =>
      rw [busy] at same
      rw [execute_of_busy busy, execute_of_busy same]
      rfl
  | false =>
      rw [busy] at same
      have marked : ({ left with busy := true } : Processor).Alike
          { right with busy := true } := ⟨alike.program, alike.options, rfl⟩
      simp only [execute, exclusively, same, busy, Bool.false_eq_true, if_false,
        Option.map_map]
      exact marked.conduct_eq fuel subject start direction

theorem executeText_eq (alike : left.Alike right) (fuel : Nat) (text : SegmentedText)
    (start : Nat) (direction : Direction) :
    (left.executeText fuel text start direction).map Prod.fst =
      (right.executeText fuel text start direction).map Prod.fst := by
  simp only [executeText, alike.options, alike.program]
  cases right.options.subject text right.program.granularity with
  | error fault => rfl
  | ok subject => exact alike.execute_eq fuel subject start direction

theorem perform_eq (alike : left.Alike right) (call : Call) :
    (left.perform call).map Prod.fst = (right.perform call).map Prod.fst := by
  have lifted {first second : Option (Except Fault MatchResult × Processor)}
      (same : first.map Prod.fst = second.map Prod.fst) :
      (first.map fun (result, after) => (some result, after)).map Prod.fst =
        (second.map fun (result, after) => (some result, after)).map Prod.fst := by
    have wrapped := congrArg (Option.map some) same
    rw [Option.map_map, Option.map_map] at wrapped ⊢
    exact wrapped
  cases call with
  | execute fuel subject start direction =>
      exact lifted (alike.execute_eq fuel subject start direction)
  | executeText fuel text start direction =>
      exact lifted (alike.executeText_eq fuel text start direction)
  | setOptions options => rfl

end Alike

variable {processor after : Processor}

/-- An execution leaves its processor as it was, apart from the state. In particular it
is free again if it was free, whether a result is returned or a fault is thrown. -/
theorem alike_of_execute {fuel : Nat} {subject : Subject} {start : Nat}
    {direction : Direction} {result : Except Fault MatchResult}
    (executed : processor.execute fuel subject start direction = some (result, after)) :
    after.Alike processor := by
  cases busy : processor.busy with
  | true =>
      rw [execute_of_busy busy] at executed
      cases executed
      exact ⟨rfl, rfl, rfl⟩
  | false =>
      cases refusal : processor.refusal? subject start direction with
      | some refused =>
          rw [execute_of_refusal busy refusal] at executed
          cases executed
          exact ⟨rfl, rfl, rfl⟩
      | none =>
          obtain ⟨rfl, admitted⟩ := refusal?_eq_none_iff.mp refusal
          rw [execute_of_admitted busy admitted, Option.map_eq_some_iff] at executed
          obtain ⟨⟨ending, final⟩, -, same⟩ := executed
          cases same
          exact ⟨rfl, rfl, busy.symm⟩

theorem alike_of_executeText {fuel : Nat} {text : SegmentedText} {start : Nat}
    {direction : Direction} {result : Except Fault MatchResult}
    (executed : processor.executeText fuel text start direction = some (result, after)) :
    after.Alike processor := by
  rw [executeText] at executed
  split at executed
  · cases executed
    exact ⟨rfl, rfl, rfl⟩
  · exact alike_of_execute executed

theorem alike_of_perform {call : Call} {answer : Option (Except Fault MatchResult)}
    (performed : processor.perform call = some (answer, after)) :
    after.Alike (processor.withOptions (call.options processor.options)) := by
  cases call with
  | execute =>
      obtain ⟨⟨result, last⟩, executed, same⟩ := Option.map_eq_some_iff.mp performed
      cases same
      exact alike_of_execute executed
  | executeText =>
      obtain ⟨⟨result, last⟩, executed, same⟩ := Option.map_eq_some_iff.mp performed
      cases same
      exact alike_of_executeText executed
  | setOptions options =>
      cases performed
      exact ⟨rfl, rfl, rfl⟩

theorem alike_of_performAll {calls : List Call}
    {answers : List (Option (Except Fault MatchResult))}
    (performed : processor.performAll calls = some (answers, after)) :
    after.Alike (processor.withOptions (Call.lastOptions processor.options calls)) := by
  induction calls generalizing processor answers with
  | nil =>
      cases performed
      exact ⟨rfl, rfl, rfl⟩
  | cons call later induction =>
      simp only [performAll, Option.bind_eq_bind, Option.bind_eq_some_iff] at performed
      obtain ⟨⟨answer, between⟩, first, ⟨others, last⟩, rest, same⟩ := performed
      cases same
      have step := alike_of_perform first
      have run := induction rest
      rw [show between.options = call.options processor.options from step.options] at run
      exact ⟨run.program.trans step.program, run.options, run.busy.trans step.busy⟩

/-- However a processor has been used, whatever its calls have returned or thrown and
wherever they have stopped: it is free, and it answers any call as a new processor with the
options that were set last. -/
theorem perform_independent_of_history {program : Program} {options : Options}
    {fresh used : Processor} (made : Processor.new program options = .ok fresh)
    {calls : List Call} {answers : List (Option (Except Fault MatchResult))}
    (performed : fresh.performAll calls = some (answers, used)) :
    used.busy = false ∧ used.options = Call.lastOptions options calls ∧
      ∃ current, Processor.new program used.options = .ok current ∧
        ∀ call, (used.perform call).map Prod.fst = (current.perform call).map Prod.fst := by
  have alike := alike_of_performAll performed
  rw [Processor.new] at made
  cases validated : program.validate with
  | error fault =>
      rw [validated] at made
      cases made
  | ok =>
      rw [validated] at made
      cases made
      refine ⟨alike.busy, alike.options, { program, options := used.options }, ?_,
        fun call => ?_⟩
      · rw [Processor.new, validated]
        rfl
      · have same : used.Alike { program, options := used.options } :=
          ⟨alike.program, rfl, alike.busy⟩
        exact same.perform_eq call

def faltering : Program where
  instructions := #[.beginCapture 1, .matchAny .forward false false, .endCapture 1,
    .branch ⟨0⟩, .accept, .matchAny .forward false false, .save ⟨1⟩, .clear, .branch ⟨2⟩,
    .fail, .clearThrough ⟨1⟩ true, .accept]
  targets := #[some 5, some 4, some 10]
  captureCount := 2

def falteringCalls : List Call :=
  [.executeText 20 (.byUnits #[0x61, 0x62]) 0 .forward,
    .setOptions { budget := 2 }, .executeText 20 (.byUnits #[0x61]) 0 .forward,
    .execute 20 (.whole (.byUnits #[0x61]) .codePoint) 0 .reverse,
    .execute 20 (.whole (.byUnits #[0x61]) .grapheme) 0 .forward,
    .setOptions { lower := 3 }, .executeText 20 (.byUnits #[0x61]) 0 .forward,
    .setOptions {}, .executeText 20 (.byUnits #[]) 0 .forward]

end

open scoped Repertoire in
theorem faltering_independent_of_history :
    ∃ used,
      ({ program := faltering, options := {} } : Processor).performAll falteringCalls =
        some ([some (.error .missingSavePoint),
          none, some (.ok ⟨.budgetExceeded, .empty, 2⟩),
          some (.error .directionMismatch), some (.error .granularityMismatch),
          none, some (.error .subjectRange), none, some (.ok (.failed 2))], used) ∧
      used.busy = false ∧
        (used.perform (.executeText 20 (.byUnits #[0x61]) 0 .forward)).map Prod.fst =
          some (some (.ok ⟨.accepted, ⟨#[some ⟨0, 1⟩, some ⟨0, 1⟩]⟩, 6⟩)) := by
  have made : Processor.new faltering {} = .ok { program := faltering, options := {} } := by
    cbv
  have answered :
      (({ program := faltering, options := {} } : Processor).performAll
        falteringCalls).map Prod.fst =
      some [some (.error .missingSavePoint),
        none, some (.ok ⟨.budgetExceeded, .empty, 2⟩),
        some (.error .directionMismatch), some (.error .granularityMismatch),
        none, some (.error .subjectRange), none, some (.ok (.failed 2))] := by cbv
  rcases Option.map_eq_some_iff.mp answered with ⟨⟨answers, used⟩, performed, rfl⟩
  obtain ⟨free, options, current, again, same⟩ := perform_independent_of_history made performed
  have unbounded : used.options = {} := options
  rw [unbounded, made] at again
  cases again
  exact ⟨used, performed, free, (same _).trans (by cbv)⟩

end Processor

end RegexMachine
