import RegexMachine.Proofs.Machine.Bounds
import RegexMachine.Rune.Repertoire

/-! # Where positions come from

A position is consumed up to, or it is the start, or it is a copy of another one:
save points and registers are given the position of their moment, and returning,
committing and rolling back only bring such copies back. So whatever is true of the
start and of every position that is consumed up to is true of all positions that a
run ever holds. Where units are clusters, being a boundary is such a property, since
every instruction that consumes looks where it lands. -/

namespace RegexMachine

/-- What a register may hold if positions are to be good. A count is no position. -/
def Register.Rests (good : Nat → Prop) : Register → Nat → Prop
  | .groupStart _, value | .groupEnd _, value | .origin _, value => good value
  | .count _, _ => True

/-- All positions that the state holds are good ones: its own, those of its save points
and those in its registers, now and whenever they are rolled back. -/
structure State.RestsOn (state : State) (good : Nat → Prop) : Prop where
  position : good state.position
  saves : ∀ save ∈ state.saves.points, good save.position
  registers : state.journal.Holds (Register.Rests good)

def MatchResult.RestsOn (result : MatchResult) (good : Nat → Prop) : Prop :=
  ∀ (group : Nat) span, result.captures.groups[group]? = some (some span) →
    good span.first ∧ good span.last

theorem MatchResult.RestsOn.of_empty {result : MatchResult} {good : Nat → Prop}
    (empty : result.captures = .empty) : result.RestsOn good := by
  intro group span found
  rw [empty] at found
  simp [CaptureTable.empty] at found

namespace State.RestsOn

variable {good : Nat → Prop} {program : Program} {subject : Subject} {state next : State}
  {instruction : Instruction}

theorem goTo (rests : state.RestsOn good) (address steps : Nat) :
    { state with address, steps }.RestsOn good :=
  ⟨rests.position, rests.saves, rests.registers⟩

theorem move (rests : state.RestsOn good) {position : Nat} (fits : good position) :
    { state with position }.RestsOn good :=
  ⟨fits, rests.saves, rests.registers⟩

theorem push (rests : state.RestsOn good) (resume : Nat) (marker : Bool) :
    (state.push resume marker).RestsOn good :=
  ⟨rests.position, List.forall_mem_cons.mpr ⟨rests.position, rests.saves⟩, rests.registers⟩

theorem drop (rests : state.RestsOn good) (above : List SavePoint) {rest : SaveStack}
    (shape : state.saves.points = above ++ rest.points) :
    { state with saves := rest }.RestsOn good := by
  refine ⟨rests.position, fun save member => rests.saves save ?_, rests.registers⟩
  rw [shape]
  exact List.mem_append_right above member

theorem write (rests : state.RestsOn good) {register : Register}
    (fits : register.Fits state.journal.groups) {content : Option Nat}
    (admits : ∀ value, content = some value → register.Rests good value) :
    { state with journal := state.journal.write register content }.RestsOn good :=
  ⟨rests.position, rests.saves, rests.registers.write fits admits⟩

theorem writePosition (rests : state.RestsOn good) {register : Register}
    (fits : register.Fits state.journal.groups) :
    { state with journal := state.journal.write register (some state.position) }.RestsOn
      good := by
  refine rests.write fits fun value same => ?_
  cases same
  cases register with
  | count => trivial
  | _ => exact rests.position

theorem writeCount (rests : state.RestsOn good) (counter : Nat) (content : Option Nat) :
    { state with journal := state.journal.setCount counter content }.RestsOn good :=
  rests.write (Register.fits_count _ _) fun _ _ => trivial

theorem beginIteration (rests : state.RestsOn good) (counter : UInt16) :
    (state.beginIteration counter).RestsOn good :=
  rests.writePosition (Register.fits_origin _ _)

theorem commit (rests : state.RestsOn good) (above : List SavePoint) {save : SavePoint}
    {rest : SaveStack} (shape : state.saves.points = above ++ save :: rest.points)
    (keep : Bool) :
    { state with
      position := save.position
      saves := rest
      journal := if keep then state.journal
        else state.journal.rollBack save.height }.RestsOn good := by
  have shorter : state.saves.points = (above ++ [save]) ++ rest.points := by
    rw [shape, List.append_assoc]
    rfl
  have dropped := rests.drop (above ++ [save]) shorter
  have moved := dropped.move (rests.saves save (by rw [shape]; simp))
  cases keep with
  | true => exact moved
  | false => exact ⟨moved.position, moved.saves, rests.registers.rollBack _⟩

theorem backtrack (rests : state.RestsOn good) (back : state.backtrack? = some next) :
    next.RestsOn good := by
  obtain ⟨save, rest, shape, rfl⟩ := State.backtrack?_eq_some back
  exact (rests.commit [] shape false).goTo _ _

variable [CharacterData]

theorem proceed (rests : state.RestsOn good)
    (lands : ∀ position, instruction.Consumes program subject state position →
      good position)
    (proceeds : instruction.Proceeds program subject state next) : next.RestsOn good := by
  cases proceeds with
  | consume consumes => exact rests.move (lands _ consumes)
  | unset => exact rests
  | anchor => exact rests
  | jump => exact rests.goTo _ _
  | branch => exact (rests.push _ _).goTo _ _
  | save => exact rests.push _ _
  | clear popped => exact rests.drop [_] (SaveStack.points_of_pop? popped)
  | commit _ found keep =>
      obtain ⟨above, shape, -⟩ := SaveStack.points_of_commitTo? found
      exact rests.commit above shape keep
  | start counter =>
      exact (rests.writeCount counter.toNat (some 0)).write (Register.fits_origin _ _) nofun
  | demand => exact rests.beginIteration _
  | full => exact rests.goTo _ _
  | more => exact (rests.push _ _).beginIteration _
  | less => exact ((rests.beginIteration _).push _ _).goTo _ _
  | again => exact (rests.writeCount _ _).goTo _ _
  | setStart group inside =>
      exact rests.writePosition (Register.fits_groupStart inside)
  | setEnd group inside =>
      exact rests.writePosition (Register.fits_groupEnd inside)

omit [CharacterData] in
theorem spanOf (rests : state.RestsOn good) {group : Nat}
    (inside : group < state.journal.groups) {span : Span}
    (captured : state.journal.spanOf group = some span) :
    good span.first ∧ good span.last ∧ span.first ≤ span.last := by
  obtain ⟨left, right, ordered⟩ := Journal.spanOf_eq_some_iff.mp captured
  exact ⟨rests.registers.registers (.groupStart group) inside _ left,
    rests.registers.registers (.groupEnd group) inside _ right, ordered⟩

end State.RestsOn

namespace Attempt

variable {attempt : Attempt} {good : Nat → Prop} {state next final : State}

theorem restsOn_setOut (fits : good attempt.start) (left : State) :
    (attempt.setOut left).RestsOn good where
  position := fits
  saves _ member := nomatch member
  registers := .reset left.journal _ _

variable [CharacterData]

/-- The instruction at hand, if it is executed, does not consume up to a bad position. -/
def LandsOn (attempt : Attempt) (state : State) (good : Nat → Prop) : Prop :=
  attempt.exhausted state = false → ∀ instruction position,
    attempt.program.instructions[state.address]? = some instruction →
      instruction.Consumes attempt.program attempt.subject state.counted position →
        good position

theorem restsOn_turn (valid : attempt.program.Valid) (bounds : attempt.Bounds state)
    (rests : state.RestsOn good) (lands : attempt.LandsOn state good)
    (step : attempt.Next state next) : next.RestsOn good := by
  have counted : state.counted.RestsOn good := rests.goTo _ _
  obtain ⟨instruction, found, -, proceeds | back⟩ :=
    step.cases valid bounds.sized bounds.address
  · have unexhausted := step.unexhausted
    exact counted.proceed (fun position => lands unexhausted instruction position found)
      proceeds
  · exact counted.backtrack back

theorem restsOn_reaches (valid : attempt.program.Valid) (bounds : attempt.Bounds state)
    (rests : state.RestsOn good)
    (lands : ∀ between, attempt.Reaches state between → between.RestsOn good →
      attempt.LandsOn between good)
    (path : attempt.Reaches state next) : next.RestsOn good := by
  induction path with
  | refl => exact rests
  | tail path step induction =>
      exact restsOn_turn valid (bounds.reaches valid path) induction
        (lands _ path induction) step

/-! ## Results -/

theorem accepts_of_accepted (valid : attempt.program.Valid) (bounds : attempt.Bounds state)
    (done : attempt.turn state = .done (.ok .accepted) final) :
    attempt.program.instructions[state.address]? = some .accept ∧ final = state.counted := by
  rcases turn_cases valid bounds.sized bounds.address with
    ⟨-, stopped⟩ | ⟨instruction, effect, found, -, allows, turned⟩
  · rw [stopped] at done
    cases done
  · rw [turned] at done
    cases allows with
    | proceed => cases done
    | stop => cases done
    | accept accepts =>
        cases done
        exact ⟨accepts ▸ found, rfl⟩
    | fail =>
        rw [resolve] at done
        split at done <;> cases done

omit [CharacterData] in
theorem restsOn_result (fits : good attempt.start) (rests : state.RestsOn good)
    {result : MatchResult} (reported : attempt.result (.ok .accepted) state = .ok result) :
    result.RestsOn good := by
  intro group span found
  simp only [Attempt.result, Journal.toTable, CaptureTable.assign] at reported
  split at reported
  · cases reported
    simp only [Array.getElem?_setIfInBounds] at found
    split at found
    · cases found
      rcases Nat.le_total attempt.start state.position with ahead | behind
      · rw [min_eq_left ahead, max_eq_right ahead]
        exact ⟨fits, rests.position⟩
      · rw [min_eq_right behind, max_eq_left behind]
        exact ⟨rests.position, fits⟩
    · rw [Array.getElem?_map, Option.map_eq_some_iff] at found
      obtain ⟨other, member, captured⟩ := found
      have inside : other < state.journal.groups :=
        Array.mem_range.mp (Array.mem_of_getElem? member)
      obtain ⟨left, right, -⟩ := rests.spanOf inside captured
      exact ⟨left, right⟩
  · cases reported

theorem restsOn_report (valid : attempt.program.Valid) (bounds : attempt.Bounds state)
    (fits : good attempt.start) (rests : state.RestsOn good)
    {ending : Except Fault MatchStatus} (done : attempt.turn state = .done ending final)
    {result : MatchResult} (reported : attempt.result ending final = .ok result) :
    result.RestsOn good := by
  cases ending with
  | error fault => cases reported
  | ok status =>
      cases status with
      | accepted =>
          obtain ⟨-, rfl⟩ := accepts_of_accepted valid bounds done
          exact restsOn_result fits (rests.goTo _ _) reported
      | noMatch =>
          cases reported
          exact .of_empty rfl
      | budgetExceeded =>
          cases reported
          exact .of_empty rfl

end Attempt

namespace Processor

variable {processor : Processor} {subject : Subject} {start : Nat} {direction : Direction}

variable [CharacterData]

/-- Whatever is true of all positions that an admitted attempt comes to is true of
the positions that the execution reports. -/
theorem restsOn_execute (valid : processor.program.Valid) {good : Nat → Prop}
    (rests : (processor.attempt subject start).Admitted → ∀ state,
      (processor.attempt subject start).Reaches
        ((processor.attempt subject start).setOut processor.state) state →
          state.RestsOn good)
    {fuel : Nat} {result : MatchResult} {after : Processor}
    (executed : processor.execute fuel subject start direction = some (.ok result, after)) :
    result.RestsOn good := by
  rcases execute_cases executed with
    reentrant | refused | ⟨admitted, ending, final, ⟨last, path, done⟩, reported⟩
  · cases reentrant
  · rw [eq_failed_of_refusal refused]
    exact .of_empty rfl
  · have bounds := (Attempt.Bounds.setOut valid admitted processor.state).reaches valid path
    have outset := rests admitted _ .refl
    exact Attempt.restsOn_report valid bounds outset.position (rests admitted last path) done
      reported.symm

end Processor

/-! ## Boundaries of clusters -/

variable [CharacterData] in
theorem Instruction.Consumes.isBoundary {program : Program} {subject : Subject}
    {state : State} {instruction : Instruction} {position : Nat}
    (clusters : subject.granularity = .grapheme)
    (consumes : instruction.Consumes program subject state position) :
    subject.isBoundary position = true := by
  have asked (boundary : Bool) :
      (boundary || subject.granularity == .grapheme) = true := by simp [clusters]
  cases consumes with
  | string _ _ ends => exact ends (asked _)
  | any _ ends => exact ends (asked _)
  | ofClass _ ends => exact ends (asked _)
  | ofSet _ _ ends => exact ends (asked _)
  | backref _ _ _ ends => exact ends (asked _)
  | advance _ ends => exact ends (asked _)

namespace Processor

variable [CharacterData] in
/-- A run of a validated program among clusters holds boundaries only, in whatever state
it is, and it reports boundaries only. The text may call any positions boundaries. -/
theorem execute_rests_on_boundaries {processor : Processor}
    (validated : processor.program.validate = .ok ())
    (clusters : processor.program.granularity = .grapheme) (subject : Subject)
    (start : Nat) :
    ((processor.attempt subject start).Admitted → ∀ state,
      (processor.attempt subject start).Reaches
        ((processor.attempt subject start).setOut processor.state) state →
          state.RestsOn (subject.isBoundary · = true)) ∧
      ∀ fuel direction result after,
        processor.execute fuel subject start direction = some (.ok result, after) →
          result.RestsOn (subject.isBoundary · = true) := by
  have valid := Program.validate_eq_ok_iff.mp validated
  have reached (admitted : (processor.attempt subject start).Admitted) (state : State)
      (path : (processor.attempt subject start).Reaches
        ((processor.attempt subject start).setOut processor.state) state) :
      state.RestsOn (subject.isBoundary · = true) := by
    have granularity : subject.granularity = .grapheme := admitted.granularity.trans clusters
    refine Attempt.restsOn_reaches valid (.setOut valid admitted _)
      (Attempt.restsOn_setOut (admitted.boundary granularity) _) ?_ path
    intro between _ _ _ instruction position _ consumes
    exact consumes.isBoundary granularity
  exact ⟨reached, fun fuel direction result after => restsOn_execute valid reached⟩

/-- A processor that looks for the first code point of a cluster and, as it may not end
there, has to capture the cluster instead. -/
def clusterGrouper : Processor where
  program :=
    { instructions := #[.branch ⟨0⟩, .beginCapture 1, .matchAny .forward false false,
        .endCapture 1, .accept, .matchString .forward 0 1 false false, .accept]
      targets := #[some 5]
      data := #[0x65]
      captureCount := 2
      granularity := .grapheme }
  options := {}

def accentedLetterAlone : Subject :=
  .whole (.segment #[0x65, 0xCC, 0x81] (some ⟨#[0, 3], by decide⟩)) .grapheme

open scoped Repertoire in
theorem clusterGrouper_rests_on_boundaries :
    ∃ result after,
      clusterGrouper.execute 8 accentedLetterAlone 0 .forward = some (.ok result, after) ∧
        result.captures.groups = #[some ⟨0, 3⟩, some ⟨0, 3⟩] ∧
          result.RestsOn (accentedLetterAlone.isBoundary · = true) := by
  have reported : (clusterGrouper.execute 8 accentedLetterAlone 0 .forward).map Prod.fst =
      some (.ok ⟨.accepted, ⟨#[some ⟨0, 3⟩, some ⟨0, 3⟩]⟩, 6⟩) := by cbv
  rcases Option.map_eq_some_iff.mp reported with ⟨⟨result, after⟩, executed, rfl⟩
  exact ⟨_, after, executed, rfl,
    (execute_rests_on_boundaries (by cbv) rfl _ 0).2 8 .forward _ after executed⟩

end Processor

end RegexMachine
