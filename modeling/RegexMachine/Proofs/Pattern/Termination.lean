import RegexMachine.Proofs.Machine.Budgets
import RegexMachine.Proofs.Pattern.Compilation
import RegexMachine.Rune.Repertoire

/-! # Attempts at compiled programs end

An attempt at a compiled program comes to an end, after as many turns as it counts
in its last state: its fragment has finitely many outcomes, and the attempt stops at
the first of them or falls back through all of them. -/

namespace RegexMachine

namespace Attempt

variable [CharacterData]

theorem ends_compiled (attempt : Attempt) {fragment : Fragment} {entry : Direction}
    {granularity : Granularity}
    (compiled : fragment.compile entry granularity = .ok attempt.program)
    (unbounded : attempt.budget = 0) (left : State) :
    ∃ status final, attempt.Ends (attempt.setOut left) (.ok status) final ∧
      (status = .accepted ∧ 0 < final.journal.groups ∨ status = .noMatch) := by
  have compiles := Fragment.compiles compiled
  have same := compiles.entry
  subst same
  cases found : attempt.outcomesOf fragment with
  | nil =>
      obtain ⟨final, ends⟩ := ends_noMatch unbounded compiles left found
      exact ⟨_, final, ends, .inr rfl⟩
  | cons first rest =>
      obtain ⟨final, ends, -, groups⟩ := ends_accepted unbounded compiles left found
      refine ⟨_, final, ends, .inl ⟨rfl, ?_⟩⟩
      rw [groups]
      exact compiles.groups

end Attempt

namespace Processor

variable {processor : Processor} {subject : Subject} {start : Nat} {fragment : Fragment}
  {entry : Direction} {granularity : Granularity}

theorem refusal?_eq_failed {refused : Except Fault MatchResult}
    (refusal : processor.refusal? subject start entry = some refused)
    (direction : entry = processor.program.entry)
    (same : subject.granularity = processor.program.granularity) :
    refused = .ok (.failed 0) := by
  rw [refusal?, if_neg (not_not_intro direction), if_neg (not_not_intro same)] at refusal
  split at refusal
  · cases refusal
    rfl
  · split at refusal
    · cases refusal
      rfl
    · cases refusal

section

variable [CharacterData]

theorem execute_of_refused {refused : Except Fault MatchResult}
    (free : processor.busy = false)
    (refusal : processor.refusal? subject start entry = some refused)
    (direction : entry = processor.program.entry)
    (same : subject.granularity = processor.program.granularity) (fuel : Nat) :
    processor.execute fuel subject start entry =
      some (.ok (.failed 0), { processor with busy := false }) := by
  rw [execute_of_refusal free refusal, refusal?_eq_failed refusal direction same, ← free]

/-- Executing a compiled program without a budget takes finitely many
instructions, namely as many as the result says, and accepts or finds no match.
A start that is not admitted takes none. -/
theorem execute_ends_after_steps
    (compiled : fragment.compile entry granularity = .ok processor.program)
    (free : processor.busy = false) (unbounded : processor.options.budget = 0)
    (same : subject.granularity = granularity) :
    ∃ result after, (result.status = .accepted ∨ result.status = .noMatch) ∧
      ∀ fuel, processor.execute fuel subject start entry =
        if result.steps ≤ fuel then some (.ok result, after) else none := by
  have compiles := Fragment.compiles compiled
  have granularities : subject.granularity = processor.program.granularity :=
    same.trans compiles.granularity.symm
  cases refusal : processor.refusal? subject start entry with
  | some refused =>
      refine ⟨.failed 0, { processor with busy := false }, .inr rfl, fun fuel => ?_⟩
      rw [execute_of_refused free refusal compiles.entry.symm granularities]
      exact (if_pos (Nat.zero_le fuel)).symm
  | none =>
      obtain ⟨direction, admitted⟩ := refusal?_eq_none_iff.mp refusal
      obtain ⟨status, final, ends, outcome⟩ :=
        (processor.attempt subject start).ends_compiled compiled unbounded processor.state
      have runs := ends.run_eq compiles.valid (.setOut compiles.valid admitted _) unbounded
      have setOut : ((processor.attempt subject start).setOut processor.state).steps = 0 := rfl
      obtain ⟨result, reported⟩ : ∃ result,
          (processor.attempt subject start).result (.ok status) final = .ok result := by
        rcases outcome with ⟨rfl, nonempty⟩ | rfl
        · exact (Attempt.result_accepted nonempty).imp fun _ => And.left
        · exact ⟨_, rfl⟩
      obtain ⟨ending, steps⟩ := Attempt.reported_of_result reported
      refine ⟨result, { processor with state := final, busy := false }, ?_, fun fuel => ?_⟩
      · rw [ending]
        exact outcome.imp And.left id
      · rw [direction, execute_of_admitted free admitted, runs, setOut, Nat.zero_add, steps,
          ← reported]
        split <;> rfl

def idleLoops : Fragment :=
  .sequence [
    .lookaround .reverse true (.repetition .greedy 0 Fragment.unbounded
      (.repetition .lazy 0 Fragment.unbounded (.literal #[0x62] .none))),
    .repetition .greedy 3 Fragment.unbounded (.literal #[] .none)]

def idler : Processor where
  program := (idleLoops.compile .forward .codePoint).toOption.getD {}
  options := {}

end

open scoped Repertoire in
theorem idler_ends_after_steps :
    ∃ result after, (result.status = .accepted ∨ result.status = .noMatch) ∧
      ∀ fuel, idler.execute fuel (.whole (.byUnits #[0x61, 0x62]) .codePoint) 1 .forward =
        if result.steps ≤ fuel then some (.ok result, after) else none := by
  have compiled : idleLoops.compile .forward .codePoint = .ok idler.program := by
    cbv
  exact execute_ends_after_steps compiled rfl rfl rfl

end Processor

end RegexMachine
