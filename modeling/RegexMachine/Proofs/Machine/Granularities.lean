import RegexMachine.Proofs.Machine.Straying
import RegexMachine.Proofs.Text.Granularities
import RegexMachine.Rune.Repertoire

/-! # Runs where code points are the clusters

Where clusters cannot be found and the limits stand between code points, a program of
clusters runs as it does among code points. No run leaves the cuts of a well-formed text
as long as the literals are well formed, and at a cut every instruction does the same
whatever the units are. -/

namespace RegexMachine

variable {program : Program} {subject : Subject} {state : State}
  (granularity : Granularity)

/-! ## One instruction -/

def Program.regrained (program : Program) (granularity : Granularity) : Program :=
  { program with granularity }

/-- Where an end on a boundary is sure, it does not matter who asks for it. -/
theorem State.arrive_regrained (state : State) {next : Option Nat} (boundary : Bool)
    (lands : ∀ position, next = some position → subject.isBoundary position = true) :
    state.arrive (subject.regrained granularity) next boundary =
      state.arrive subject next boundary := by
  cases next with
  | none => rfl
  | some position =>
      have here : subject.isBoundary position = true := lands position rfl
      have again : (subject.regrained granularity).isBoundary position = true := here
      simp only [arrive, here, again, Bool.not_true, Bool.and_false]

namespace Instruction

variable [CharacterData]

/-- From cuts of a well-formed text, an instruction whose literals are well formed does the
same among units of either kind. -/
theorem step_regrained (unitwise : subject.Unitwise) (whole : subject.WellFormed)
    {instruction : Instruction} (formed : instruction.Formed program)
    (rests : state.RestsOn subject.IsCut) :
    instruction.step (program.regrained granularity) (subject.regrained granularity) state =
      instruction.step program subject state := by
  have cut := rests.position
  cases instruction with
  | matchString direction offset length caseless boundary =>
      have literals : (program.regrained granularity).literal? = program.literal? := rfl
      simp only [step, literals]
      cases found : program.literal? offset length with
      | none => rfl
      | some literal =>
          have fits : literal.first ≤ literal.last ∧ literal.last ≤ literal.octets.size := by
            rw [Program.literal?, Option.ite_none_right_eq_some] at found
            obtain ⟨inside, found⟩ := found
            cases found
            exact ⟨Nat.le_add_right _ _, inside⟩
          simp only [Subject.passLiteral_regrained]
          refine state.arrive_regrained granularity boundary fun position passes => ?_
          rw [Subject.passLiteral_toOctets fits.1 fits.2] at passes
          exact unitwise.isBoundary (Subject.passLiteral_mirrors (formed literal found) direction
            caseless cut passes).1
  | matchAny direction newline boundary =>
      simp only [step, unitwise.passUnit_regrained granularity cut]
      exact state.arrive_regrained granularity boundary fun _ passes =>
        unitwise.isBoundary (unitwise.isCut_of_passUnit cut passes)
  | matchClass direction runeClass negated boundary =>
      simp only [step, unitwise.passUnit_regrained granularity cut]
      exact state.arrive_regrained granularity boundary fun _ passes =>
        unitwise.isBoundary (unitwise.isCut_of_passUnit cut passes)
  | matchSet direction index negated caseless boundary =>
      have sets : (program.regrained granularity).runeSets = program.runeSets := rfl
      simp only [step, sets, unitwise.passUnit_regrained granularity cut]
      cases program.runeSets[index.toNat]? with
      | none => rfl
      | some set =>
          exact state.arrive_regrained granularity boundary fun _ passes =>
            unitwise.isBoundary (unitwise.isCut_of_passUnit cut passes)
  | matchBackref direction group caseless boundary =>
      have octets : (subject.regrained granularity).text.octets = subject.text.octets := rfl
      simp only [step, octets]
      split
      · rfl
      · next known =>
          have inside : group.toNat < state.journal.groups := Nat.not_le.mp known
          cases captured : state.journal.spanOf group.toNat with
          | none => rfl
          | some span =>
              obtain ⟨first, last, ordered⟩ := rests.spanOf inside captured
              have inside : span.last ≤ subject.text.octets.size :=
                Nat.le_trans last.le_last subject.upper_le_size
              have between : (subject.stretch span).toOctets.WellFormed :=
                Octets.WellFormed.between whole subject.upper_le_size first last ordered
              simp only [Subject.passLiteral_regrained]
              refine state.arrive_regrained granularity boundary fun position passes => ?_
              rw [Subject.passLiteral_toOctets ordered inside] at passes
              exact unitwise.isBoundary (Subject.passLiteral_mirrors between direction caseless cut
                passes).1
  | advance direction count =>
      simp only [step, unitwise.passUnits_regrained granularity cut]
      exact state.arrive_regrained granularity false fun _ passes =>
        unitwise.isBoundary (unitwise.isCut_of_passUnits cut passes)
  | _ => rfl

end Instruction

/-! ## Runs -/

namespace Attempt

variable {attempt : Attempt}

def regrained (attempt : Attempt) (granularity : Granularity) : Attempt :=
  { attempt with
    program := attempt.program.regrained granularity
    subject := attempt.subject.regrained granularity }

section

variable (unitwise : attempt.subject.Unitwise) (whole : attempt.subject.WellFormed)
  (formed : attempt.program.Formed)
include unitwise whole formed

variable [CharacterData]

theorem turn_regrained (rests : state.RestsOn attempt.subject.IsCut) :
    (attempt.regrained granularity).turn state = attempt.turn state := by
  have same : (attempt.regrained granularity).exhausted state = attempt.exhausted state := rfl
  cases exhausted : attempt.exhausted state with
  | true => simp only [turn, same, exhausted, if_true]
  | false =>
      rw [exhausted] at same
      cases found : attempt.program.instructions[state.address]? with
      | none =>
          have missing : (attempt.regrained granularity).program.instructions[
              state.address]? = none := found
          simp only [turn, same, exhausted, fetch?, found, missing]
      | some instruction =>
          have counted : state.counted.RestsOn attempt.subject.IsCut := rests.goTo _ _
          rw [turn_of_fetched same found, turn_of_fetched exhausted found]
          exact congrArg resolve (Instruction.step_regrained granularity unitwise whole
            (formed _ _ found) counted)

/-- Among clusters that are code points a run stays on the cuts, so it goes on in the same
way among code points. -/
theorem run_regrained (valid : attempt.program.Valid)
    (clusters : attempt.subject.granularity = .grapheme) (bounds : attempt.Bounds state)
    (rests : state.RestsOn attempt.subject.IsCut) (fuel : Nat) :
    (attempt.regrained granularity).run fuel state = attempt.run fuel state := by
  induction fuel generalizing state with
  | zero => rfl
  | succ fuel induction =>
      rw [run, run, turn_regrained granularity unitwise whole formed rests]
      cases step : attempt.turn state with
      | done ending final => rfl
      | next next =>
          have lands : attempt.LandsOn state attempt.subject.IsCut := by
            intro _ instruction position _ consumes
            have counted : attempt.Contains state.counted := bounds.toContains.goTo _ _
            exact (unitwise position (counted.consume consumes)).mp (consumes.isBoundary clusters)
          exact induction (bounds.turn valid step) (restsOn_turn valid bounds rests lands step)

end

end Attempt

/-! ## Validation -/

namespace Program

theorem settle_regrained (program : Program) (resumed : Array Bool) (depths : SaveDepths) :
    (program.regrained granularity).settle resumed depths = program.settle resumed depths := by
  have swept : (program.regrained granularity).sweep = program.sweep := rfl
  fun_induction settle program resumed depths with
  | case1 depths rejection stopped => rw [settle, swept, stopped]
  | case2 depths next found improved induction =>
      rw [settle, swept, found]
      exact (if_pos improved).trans induction
  | case3 depths next found settled =>
      rw [settle, swept, found]
      exact if_neg settled

theorem validate_regrained (program : Program) :
    (program.regrained granularity).validate = program.validate := by
  have depths : (program.regrained granularity).saveDepths = program.saveDepths :=
    settle_regrained granularity program _ _
  have defect : (program.regrained granularity).defect? = program.defect? := by
    rw [defect?, defect?, saveDefect?, saveDefect?, depths]
    rfl
  rw [validate, validate, defect]

end Program

/-! ## Executions -/

namespace Processor

variable {processor : Processor} {start : Nat}

def regrained (processor : Processor) (granularity : Granularity) : Processor :=
  { processor with program := processor.program.regrained granularity }

theorem refusal?_regrained (processor : Processor) (unitwise : subject.Unitwise)
    (same : subject.granularity = processor.program.granularity)
    (cut : subject.covers start = true → subject.IsCut start) (direction : Direction) :
    (processor.regrained granularity).refusal? (subject.regrained granularity) start direction =
      processor.refusal? subject start direction := by
  have matching : (subject.regrained granularity).granularity =
      (processor.regrained granularity).program.granularity := rfl
  have entry : (processor.regrained granularity).program.entry = processor.program.entry := rfl
  have covers : (subject.regrained granularity).covers start = subject.covers start := rfl
  simp only [refusal?, matching, same, entry, covers, ne_eq, not_true_eq_false, if_false]
  cases covered : subject.covers start with
  | false => rfl
  | true =>
      have boundary : subject.isBoundary start = true := unitwise.isBoundary (cut covered)
      have again : (subject.regrained granularity).isBoundary start = true := boundary
      simp only [boundary, again, Bool.not_true, Bool.and_false]

section

variable [CharacterData]

theorem execute_regrained (valid : processor.program.Valid) (formed : processor.program.Formed)
    (clusters : processor.program.granularity = .grapheme)
    (same : subject.granularity = .grapheme) (unitwise : subject.Unitwise)
    (whole : subject.WellFormed) (cut : subject.covers start = true → subject.IsCut start)
    (fuel : Nat) (direction : Direction) :
    ((processor.regrained granularity).execute fuel (subject.regrained granularity) start
        direction).map Prod.fst =
      (processor.execute fuel subject start direction).map Prod.fst := by
  have refusals := processor.refusal?_regrained granularity unitwise (same.trans clusters.symm) cut
    direction
  cases busy : processor.busy with
  | true =>
      have still : (processor.regrained granularity).busy = true := busy
      rw [execute_of_busy busy, execute_of_busy still]
      rfl
  | false =>
      have still : (processor.regrained granularity).busy = false := busy
      cases refusal : processor.refusal? subject start direction with
      | some refused =>
          rw [refusal] at refusals
          rw [execute_of_refusal busy refusal, execute_of_refusal still refusals]
          rfl
      | none =>
          rw [refusal] at refusals
          obtain ⟨rfl, admitted⟩ := refusal?_eq_none_iff.mp refusal
          obtain ⟨-, again⟩ := refusal?_eq_none_iff.mp refusals
          have attempts : (processor.regrained granularity).attempt (subject.regrained granularity)
              start = (processor.attempt subject start).regrained granularity := rfl
          have bounds := Attempt.Bounds.setOut valid admitted processor.state
          have rests : ((processor.attempt subject start).setOut processor.state).RestsOn
              subject.IsCut := Attempt.restsOn_setOut (cut admitted.covered) _
          have ran := Attempt.run_regrained granularity unitwise whole formed valid same bounds
            rests fuel
          have resumed := execute_of_admitted still again fuel
          rw [attempts] at resumed
          rw [execute_of_admitted busy admitted, ← ran, Option.map_map]
          exact (congrArg (Option.map Prod.fst) resumed).trans (Option.map_map _ _ _)

/-- Executing a validated program of clusters whose literals are well formed, on a
well-formed text whose clusters cannot be found, ends as executing the same program among
code points does, if the limits and the start stand between code points: in the same status
after as many instructions with the same groups, or with the same fault. That program is
validated as well. -/
theorem executeText_of_unknown_clusters (validated : processor.program.validate = .ok ())
    (clusters : processor.program.granularity = .grapheme) (formed : processor.program.Formed)
    {octets : Octets} (wellFormed : octets.WellFormed)
    (lower : processor.options.lower ∈ octets.unitBoundaries)
    (upper : processor.options.upper.getD octets.size ∈ octets.unitBoundaries)
    (begins : start ∈ octets.unitBoundaries) (fuel : Nat) (direction : Direction) :
    (processor.regrained .codePoint).program.validate = .ok () ∧
      ((processor.regrained .codePoint).executeText fuel (.segment octets none) start
          direction).map Prod.fst =
        (processor.executeText fuel (.segment octets none) start direction).map Prod.fst := by
  refine ⟨(Program.validate_regrained _ _).trans validated, ?_⟩
  have valid := Program.validate_eq_ok_iff.mp validated
  by_cases ordered : processor.options.lower ≤ processor.options.upper.getD octets.size ∧
      processor.options.upper.getD octets.size ≤ octets.size
  · let subject : Subject := ⟨.segment octets none, processor.options.lower,
      processor.options.upper.getD octets.size, .grapheme, ordered.1, ordered.2⟩
    have made : processor.options.subject (.segment octets none) processor.program.granularity =
        .ok subject := by
      rw [clusters]
      exact dif_pos ordered
    have remade : (processor.regrained .codePoint).options.subject (.segment octets none)
        (processor.regrained .codePoint).program.granularity =
          .ok (subject.regrained .codePoint) := dif_pos ordered
    rw [executeText, executeText, made, remade]
    have unitwise : subject.Unitwise := Subject.unitwise_of_segment rfl lower upper
    rw [Octets.mem_unitBoundaries] at lower upper begins
    have extract : octets.extract 0 octets.size = octets := Array.extract_size
    have whole : subject.WellFormed :=
      Octets.WellFormed.between (extract.symm ▸ wellFormed) (Nat.le_refl _) lower upper ordered.1
    have cut : subject.covers start = true → subject.IsCut start := by
      intro covered
      have within := Subject.covers_iff.mp covered
      have limited := (Octets.isCut_later_iff lower).mpr ⟨upper, ordered.1⟩
      have later := (Octets.isCut_later_iff lower).mpr ⟨begins, within.1⟩
      exact (Octets.isCut_shorter_iff limited).mpr ⟨later, within.2⟩
    exact execute_regrained .codePoint valid formed clusters rfl unitwise whole cut fuel direction
  · have refused : ∀ granularity, processor.options.subject (.segment octets none) granularity =
        .error .subjectRange := fun _ => dif_neg ordered
    have same : (processor.regrained .codePoint).options = processor.options := rfl
    rw [executeText, executeText, same, refused, refused]
    rfl

end

open scoped Repertoire in
/-- Between the limits stands a letter with an accent. Where clusters are known the letter
is no match by itself, and where they are not it is one. -/
theorem clusterGrouper_of_unknown_clusters :
    let text : Octets := #[0x61, 0x65, 0xCC, 0x81, 0x62]
    let clusters : Boundaries := ⟨#[0, 1, 4, 5], by decide⟩
    let processor := clusterGrouper.withOptions { budget := 9, lower := 1, upper := some 4 }
    (processor.executeText 8 (.segment text (some clusters)) 1 .forward).map Prod.fst =
        some (.ok ⟨.accepted, ⟨#[some ⟨1, 4⟩, some ⟨1, 4⟩]⟩, 6⟩) ∧
      ((processor.regrained .codePoint).executeText 8 (.segment text none) 1
          .forward).map Prod.fst =
        some (.ok ⟨.accepted, ⟨#[some ⟨1, 2⟩, none]⟩, 3⟩) := by
  intro text clusters processor
  have formed : processor.program.Formed := by
    intro address instruction found
    have member := Array.mem_of_getElem? found
    simp only [processor, withOptions, clusterGrouper, List.mem_toArray, List.mem_cons,
      List.not_mem_nil, or_false] at member
    rcases member with rfl | rfl | rfl | rfl | rfl | rfl | rfl
    case inr.inr.inr.inr.inr.inl =>
      intro literal named
      cases named
      exact ⟨[0x65], by decide +kernel⟩
    all_goals trivial
  have wellFormed : text.WellFormed := ⟨[0x61, 0x65, 0x301, 0x62], by decide +kernel⟩
  have validated : processor.program.validate = .ok () := by cbv
  have lower : processor.options.lower ∈ text.unitBoundaries := by decide +kernel
  have upper : processor.options.upper.getD text.size ∈ text.unitBoundaries := by decide +kernel
  have begins : 1 ∈ text.unitBoundaries := by decide +kernel
  have alike := (executeText_of_unknown_clusters validated rfl formed wellFormed lower upper
    begins 8 .forward).2
  exact ⟨by cbv, alike.trans (by cbv)⟩

end Processor

end RegexMachine
