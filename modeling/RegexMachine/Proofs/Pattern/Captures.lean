import RegexMachine.Proofs.Machine.Positions
import RegexMachine.Proofs.Pattern.Traversals
import RegexMachine.Rune.Repertoire

/-! # Reported captures

What an accepted match reports of a group is the last traversal of a capture of it on the
path that has led to the acceptance. The two ends that the registers hold are of the same
traversal, and since the outcomes of a fragment keep them in order, they are never
dropped. -/

namespace RegexMachine

namespace CaptureTable

variable {table : CaptureTable} {group : Nat} {content : Option Span}

theorem span_eq_ok_iff : table.span group = .ok content ↔ table.groups[group]? = some content := by
  unfold span
  split
  · next found => rw [found, Except.ok.injEq, Option.some.injEq]
  · next missing => simp [missing]

theorem has_iff : table.has group = true ↔ ∃ span, table.span group = .ok (some span) := by
  simp only [has, span_eq_ok_iff, Option.isSome_iff_exists, Option.join_eq_some_iff]

end CaptureTable

theorem MatchResult.Reports.span_eq_ok_iff {result : MatchResult} {outcome : Outcome}
    {start groups group : Nat} {span : Span} (reports : result.Reports outcome start groups)
    (other : 0 < group) :
    result.captures.span group = .ok (some span) ↔
      group < groups ∧ outcome.spanOf group = some span := by
  rw [CaptureTable.span_eq_ok_iff]
  by_cases inside : group < groups
  · rw [reports.others _ other inside, Option.some.injEq, and_iff_right inside]
  · have outside : result.captures.groups[group]? = none := by
      refine Array.getElem?_eq_none ?_
      have size : result.captures.groups.size = groups := reports.size
      omega
    rw [outside]
    exact iff_of_false nofun fun both => inside both.1

namespace Attempt

variable {attempt : Attempt} {final : State} {fragment : Fragment} {group : UInt16}

variable [CharacterData]

/-- When a compiled program accepts, the ends of each group are in order. -/
theorem ordered_of_accepted {granularity : Granularity} {left : State}
    (compiles : fragment.Compiles attempt.program.entry granularity attempt.program)
    (apart : fragment.CapturesApart)
    (covered : attempt.subject.covers attempt.start = true)
    (ends : attempt.Ends (attempt.setOut left) (.ok .accepted) final) :
    final.outcome.Ordered group.toNat := by
  have ends := ends.unbounded nofun
  have lifted : attempt.unbounded.budget = 0 := rfl
  cases found : attempt.unbounded.outcomesOf fragment with
  | nil =>
      obtain ⟨last, missed⟩ := ends_noMatch lifted compiles left found
      cases (ends.unique missed).1
  | cons first rest =>
      obtain ⟨last, accepted, reached, -⟩ := ends_accepted lifted compiles left found
      obtain ⟨-, rfl⟩ := ends.unique accepted
      have member : first ∈ attempt.unbounded.outcomesOf fragment := by
        rw [found]
        exact List.mem_cons_self
      have opening : (Outcome.opening attempt.start).Ordered group.toNat := nofun
      rw [reached]
      exact Fragment.outcomes_ordered apart covered opening member

end Attempt

section

variable [CharacterData]

/-- The result has a span for the group just if the turns have gone through a capture of
it, and then it is that of the last time. -/
structure MatchResult.ComesFrom (result : MatchResult) (program : Program)
    (fragment : Fragment) (turns : List State) (group : UInt16) : Prop where
  has : result.captures.has group.toNat = true ↔
    ∃ newer span, fragment.Traversed program group turns newer span
  last : ∀ span, result.captures.span group.toNat = .ok (some span) ↔
    fragment.LastTraversed program group turns span
  ordered : ∀ span, result.captures.span group.toNat = .ok (some span) →
    span.first ≤ span.last

namespace Attempt

variable {attempt : Attempt} {state final : State} {turns newer : List State}
  {fragment : Fragment} {group : UInt16} {span : Span} {result : MatchResult}

theorem lt_of_traversed (valid : attempt.program.Valid) (apart : fragment.CapturesApart)
    (traversed : fragment.Traversed attempt.program group turns newer span) :
    group.toNat < attempt.program.captureCount := by
  obtain ⟨pass, older, -, direction, entry, inside, exit, -, captures, -⟩ := traversed
  obtain ⟨entered, -⟩ := captures.ends apart
  cases direction with
  | forward => exact (valid.resolves _ (.beginCapture group) entered).2
  | reverse => exact (valid.resolves _ (.endCapture group) entered).2

theorem comesFrom_of_accepted {granularity : Granularity} {left : State}
    (compiled : fragment.compile attempt.program.entry granularity = .ok attempt.program)
    (apart : fragment.CapturesApart) (admitted : attempt.Admitted)
    (reached : attempt.Reaches (attempt.setOut left) state)
    (done : attempt.turn state = .done (.ok .accepted) final)
    (reported : attempt.result (.ok .accepted) final = .ok result)
    (standing : attempt.Standing (attempt.setOut left) state turns) (other : group ≠ 0) :
    result.ComesFrom attempt.program fragment turns group := by
  have compiles := Fragment.compiles compiled
  have valid := compiles.valid
  have start := Bounds.setOut valid admitted left
  have bounds := start.reaches valid reached
  have delimited := fun address instruction =>
    Fragment.delimited_of_compile apart compiled group address instruction
  have ordered : final.outcome.Ordered group.toNat :=
    ordered_of_accepted compiles apart admitted.covered ⟨state, reached, done⟩
  obtain ⟨accepts, rfl⟩ := accepts_of_accepted valid bounds done
  have level := (delimited _ _ accepts).accepts rfl
  have groups : state.counted.journal.groups = attempt.program.captureCount :=
    bounds.sized.groups_eq
  obtain ⟨found, again, reports⟩ : ∃ found,
      attempt.result (.ok .accepted) state.counted = .ok found ∧
        found.Reports state.outcome attempt.start state.counted.journal.groups :=
    result_accepted (groups ▸ compiles.groups)
  cases reported.symm.trans again
  have positive : 0 < group.toNat := Nat.pos_of_ne_zero fun zero => other (UInt16.toNat_inj.mp zero)
  have holds (span : Span) : state.outcome.spanOf group.toNat = some span ↔
      fragment.LastTraversed attempt.program group turns span :=
    standing.spanOf_eq_some_iff valid start apart delimited level ordered
  have last (span : Span) : result.captures.span group.toNat = .ok (some span) ↔
      fragment.LastTraversed attempt.program group turns span := by
    rw [reports.span_eq_ok_iff positive, groups, holds span]
    refine and_iff_right_of_imp fun traversed => ?_
    obtain ⟨newer, traversed, -⟩ := traversed
    exact lt_of_traversed valid apart traversed
  refine ⟨?_, last, fun span captured => ?_⟩
  · rw [CaptureTable.has_iff]
    constructor
    · rintro ⟨span, captured⟩
      obtain ⟨newer, traversed, -⟩ := (last span).mp captured
      exact ⟨newer, span, traversed⟩
    · rintro ⟨newer, span, traversed⟩
      obtain ⟨found, traversed⟩ := traversed.exists_last
      exact ⟨found, (last found).mpr traversed⟩
  · have held := (holds span).mpr ((last span).mp captured)
    exact (Outcome.spanOf_eq_some_iff.mp held).2.2

end Attempt

end

namespace Processor

variable {processor after : Processor} {subject : Subject} {fragment : Fragment}
  {entry direction : Direction} {granularity : Granularity} {fuel start : Nat}
  {result : MatchResult}

section

variable [CharacterData]

/-- Reported captures come from one traversal. When a program accepts that has been
compiled from captures which are apart, then on the path that has led there, without what
has been undone, each group that is set has been traversed, each that has been traversed is
set, and its span is that of the last traversal. -/
theorem execute_comesFrom (apart : fragment.CapturesApart)
    (compiled : fragment.compile entry granularity = .ok processor.program)
    (executed : processor.execute fuel subject start direction = some (.ok result, after))
    (accepted : result.status = .accepted) :
    ∃ last, (processor.attempt subject start).turn last = .done (.ok .accepted) last.counted ∧
      (∃ turns, (processor.attempt subject start).Standing
        ((processor.attempt subject start).setOut processor.state) last turns) ∧
      ∀ turns, (processor.attempt subject start).Standing
        ((processor.attempt subject start).setOut processor.state) last turns →
          ∀ group : UInt16, group ≠ 0 →
            result.ComesFrom processor.program fragment turns group := by
  have compiles := Fragment.compiles compiled
  have entries := compiles.entry
  subst entries
  have valid := compiles.valid
  rcases execute_cases executed with
    reentrant | refused | ⟨admitted, ending, final, ⟨last, path, done⟩, reported⟩
  · cases reentrant
  · rw [eq_failed_of_refusal refused] at accepted
    cases accepted
  · have bounds : (processor.attempt subject start).Bounds
        ((processor.attempt subject start).setOut processor.state) :=
      .setOut valid admitted processor.state
    cases ending with
    | error fault => cases reported
    | ok status =>
        obtain ⟨rfl, -⟩ := Attempt.reported_of_result reported.symm
        rw [accepted] at done reported
        obtain ⟨-, rfl⟩ := Attempt.accepts_of_accepted valid (bounds.reaches valid path) done
        refine ⟨last, done, Attempt.exists_standing valid bounds
          (Attempt.remembers_setOut _ processor.state) path, fun turns standing group other => ?_⟩
        exact Attempt.comesFrom_of_accepted compiled apart admitted path done reported.symm
          standing other

def letters : Fragment :=
  .sequence [.repetition .greedy 0 Fragment.unbounded (.capture 1 (.any .none)),
    .literal #[0x62] .none, .lookaround .reverse false (.capture 2 (.any .none))]

def lettersFinder : Processor where
  program := (letters.compile .forward .codePoint).toOption.getD {}
  options := {}

end

open scoped Repertoire in
theorem lettersFinder_comesFrom :
    ∃ (result : MatchResult) (turns : List State), result.captures =
        ⟨#[some ⟨0, 2⟩, some ⟨0, 1⟩, some ⟨1, 2⟩]⟩ ∧
      result.ComesFrom lettersFinder.program letters turns 1 ∧
        result.ComesFrom lettersFinder.program letters turns 2 := by
  have apart : letters.CapturesApart := by
    simp [letters, Fragment.CapturesApart, Fragment.Throughout, Fragment.subfragments,
      Fragment.subfragmentsEach, Fragment.SparesOwn, Fragment.Spares]
  have compiled : letters.compile .forward .codePoint = .ok lettersFinder.program := by
    cbv
  have executed :
      (lettersFinder.execute 60 (.whole (.byUnits #[0x61, 0x62]) .codePoint) 0 .forward).map
          Prod.fst =
        some (.ok ⟨.accepted, ⟨#[some ⟨0, 2⟩, some ⟨0, 1⟩, some ⟨1, 2⟩]⟩, 23⟩) := by
    cbv
  obtain ⟨⟨report, after⟩, executed, rfl⟩ := Option.map_eq_some_iff.mp executed
  obtain ⟨last, -, ⟨turns, standing⟩, comesFrom⟩ :=
    execute_comesFrom apart compiled executed rfl
  exact ⟨_, turns, rfl, comesFrom turns standing 1 (by decide),
    comesFrom turns standing 2 (by decide)⟩

end Processor

end RegexMachine
