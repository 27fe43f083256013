import RegexMachine.Narration
import RegexMachine.Proofs.Machine.Bounds
import RegexMachine.Proofs.Machine.Shifts
import RegexMachine.Proofs.Text.Windows
import RegexMachine.Rune.Repertoire

/-! # Limits confine every read

A program of code points that asks for no boundary does between the limits of a
subject what it does on the text between the limits by itself. The states of the two
runs are the same but for the distance between the texts, turn by turn. -/

namespace RegexMachine

variable {whole part : Subject} {state : State}

/-! ## One instruction -/

theorem State.arrive_shift (frames : whole.Frames part) (state : State)
    {next partNext : Option Nat} (passed : next = partNext.map (whole.lower + ·)) :
    (state.shift whole.lower).arrive whole next false =
      (state.arrive part partNext false).shift whole.lower := by
  subst passed
  cases partNext with
  | none => rfl
  | some position =>
      simp only [arrive, Option.map_some, frames.wholeCodePoints, frames.partCodePoints]
      rfl

namespace Instruction

variable [CharacterData]

/-- An instruction that asks for no boundary does to the state, moved along to the
window, what it does to the state. -/
theorem step_shift (program : Program) (frames : whole.Frames part) {instruction : Instruction}
    (undemanding : instruction.undemanding? = none)
    (captures : state.journal.Holds part.Holds) :
    instruction.step program whole (state.shift whole.lower) =
      (instruction.step program part state).shift whole.lower := by
  cases instruction with
  | matchString direction offset length caseless boundary =>
      cases boundary with
      | true => cases undemanding
      | false =>
          simp only [step]
          cases program.literal? offset length with
          | none => rfl
          | some literal =>
              have passed := frames.passLiteral state.position literal direction caseless
              exact state.arrive_shift frames passed
  | matchAny direction newline boundary =>
      cases boundary with
      | true => cases undemanding
      | false =>
          have passed := frames.passUnit direction state.position fun rune =>
            newline || !rune.isLineTerminator
          exact state.arrive_shift frames passed
  | matchClass direction runeClass negated boundary =>
      cases boundary with
      | true => cases undemanding
      | false =>
          have passed := frames.passUnit direction state.position fun rune =>
            runeClass.contains rune != negated
          exact state.arrive_shift frames passed
  | matchSet direction index negated caseless boundary =>
      cases boundary with
      | true => cases undemanding
      | false =>
          simp only [step]
          cases program.runeSets[index.toNat]? with
          | none => rfl
          | some set =>
              have passed := frames.passUnit direction state.position fun rune =>
                set.contains (if caseless then rune.caseFold else rune) != negated
              exact state.arrive_shift frames passed
  | matchBackref direction group caseless boundary =>
      cases boundary with
      | true => cases undemanding
      | false =>
          have groups : (state.shift whole.lower).journal.groups = state.journal.groups :=
            state.journal.groups_shift whole.lower
          simp only [step, groups]
          split
          · rfl
          · next known =>
              have inside : group.toNat < state.journal.groups := Nat.not_le.mp known
              simp only [State.shift, state.journal.spanOf_shift whole.lower inside]
              cases captured : state.journal.spanOf group.toNat with
              | none => rfl
              | some span =>
                  obtain ⟨-, ends, ordered⟩ := Journal.spanOf_eq_some_iff.mp captured
                  have covered := captures.registers (.groupEnd group.toNat) inside _ ends
                  have passed := frames.passLiteral_own state.position ordered
                    (Subject.covers_iff.mp covered).2 direction caseless
                  exact state.arrive_shift frames passed
  | advance direction count =>
      have passed := frames.passUnits direction count.toNat state.position
      exact state.arrive_shift frames passed
  | jump target => exact state.goTo_shift whole.lower program target
  | branch target =>
      exact (state.push state.address false).goTo_shift whole.lower program target
  | save target =>
      simp only [step]
      cases program.target? target <;> rfl
  | clear =>
      have popped := state.saves.pop?_shift whole.lower
      simp only [step, State.shift, popped]
      cases state.saves.pop? <;> rfl
  | clearThrough target keep => exact state.commit_shift whole.lower program target keep
  | repeatStart counter =>
      have counters : (state.shift whole.lower).journal.counters = state.journal.counters :=
        state.journal.counters_shift whole.lower
      simp only [step, counters]
      split
      · exact congrArg (fun journal => Effect.proceed { state.shift whole.lower with journal })
          (state.journal.startCounter_shift whole.lower counter.toNat)
      · rfl
  | quantify greed min max counter exit =>
      exact state.quantify_shift whole.lower program greed min max counter exit
  | repeatEnd counter head => exact state.endIteration_shift whole.lower program counter head
  | beginCapture group =>
      exact state.capturing_shift whole.lower group fun journal group position inside =>
        journal.write_shift whole.lower (Register.fits_groupStart inside) (some position)
  | endCapture group =>
      exact state.capturing_shift whole.lower group fun journal group position inside =>
        journal.write_shift whole.lower (Register.fits_groupEnd inside) (some position)
  | assertAnchor anchor =>
      have holds := frames.anchorHolds state.position anchor
      simp only [step, State.shift, holds]
      split <;> rfl
  | fail => rfl
  | accept => rfl

end Instruction

/-! ## Runs -/

def Program.Undemanding (program : Program) : Prop :=
  ∀ instruction ∈ program.instructions, instruction.undemanding? = none

instance (program : Program) : Decidable program.Undemanding :=
  inferInstanceAs (Decidable (∀ instruction ∈ program.instructions, _))

namespace Attempt

variable {attempt : Attempt}

def within (attempt : Attempt) (whole : Subject) : Attempt :=
  { attempt with
    subject := whole
    start := whole.lower + attempt.start }

variable [CharacterData]

theorem turn_shift (frames : whole.Frames attempt.subject)
    (undemanding : attempt.program.Undemanding)
    (captures : state.journal.Holds attempt.subject.Holds) :
    (attempt.within whole).turn (state.shift whole.lower) =
      (attempt.turn state).shift whole.lower := by
  have same : (attempt.within whole).exhausted (state.shift whole.lower) =
      attempt.exhausted state := rfl
  cases exhausted : attempt.exhausted state with
  | true =>
      rw [exhausted] at same
      simp only [turn, same, exhausted, if_true]
      rfl
  | false =>
      rw [exhausted] at same
      cases found : attempt.program.instructions[state.address]? with
      | none =>
          have missing : (attempt.within whole).program.instructions[
              (state.shift whole.lower).address]? = none := found
          simp only [turn, same, exhausted, fetch?, found, missing]
          rfl
      | some instruction =>
          have counted : state.counted.journal.Holds attempt.subject.Holds := captures
          have stepped := Instruction.step_shift attempt.program frames
            (undemanding instruction (Array.mem_of_getElem? found)) counted
          rw [turn_of_fetched same found, turn_of_fetched exhausted found, ← resolve_shift]
          exact congrArg resolve stepped

/-- The runs keep step, and they end in the same way. -/
theorem run_shift (frames : whole.Frames attempt.subject) (valid : attempt.program.Valid)
    (undemanding : attempt.program.Undemanding) (bounds : attempt.Bounds state) (fuel : Nat) :
    (attempt.within whole).run fuel (state.shift whole.lower) =
      (attempt.run fuel state).map fun (ending, final) => (ending, final.shift whole.lower) := by
  induction fuel generalizing state with
  | zero => rfl
  | succ fuel induction =>
      have turned := turn_shift frames undemanding bounds.captures
      rw [run, run, turned]
      cases step : attempt.turn state with
      | next next => exact induction (bounds.turn valid step)
      | done ending final => rfl

omit [CharacterData] in
theorem setOut_shift (attempt : Attempt) (whole : Subject) (left other : State) :
    (attempt.within whole).setOut left = (attempt.setOut other).shift whole.lower := by
  have reset : left.journal.reset attempt.program.captureCount attempt.program.counterCount =
      (other.journal.reset attempt.program.captureCount attempt.program.counterCount).shift
        whole.lower :=
    Journal.eq_of_parts (Registers.shift_ofSize whole.lower _ _).symm rfl
  simp only [setOut, within, reset]
  rfl

omit [CharacterData] in
theorem result_shift (attempt : Attempt) (whole : Subject) (ending : Except Fault MatchStatus)
    (state : State) :
    (attempt.within whole).result ending (state.shift whole.lower) =
      (attempt.result ending state).map (·.shift whole.lower) := by
  cases ending with
  | error fault => rfl
  | ok status =>
      cases status with
      | accepted =>
          have table := state.journal.toTable_shift whole.lower
            (min attempt.start state.position) (max attempt.start state.position)
          rw [← Nat.add_min_add_left, ← Nat.add_max_add_left] at table
          simp only [result, within, State.shift, table]
          cases state.journal.toTable (min attempt.start state.position)
            (max attempt.start state.position) <;> rfl
      | noMatch => exact congrArg Except.ok (MatchResult.shift_empty _ _ _).symm
      | budgetExceeded => exact congrArg Except.ok (MatchResult.shift_empty _ _ _).symm

end Attempt

/-! ## Executions -/

namespace Processor

variable {processor : Processor} {start : Nat}

theorem refusal?_shift (processor : Processor) (frames : whole.Frames part) (start : Nat)
    (direction : Direction) :
    processor.refusal? whole (whole.lower + start) direction =
      (processor.refusal? part start direction).map (·.map (·.shift whole.lower)) := by
  have unbounded : (Granularity.codePoint == .grapheme) = false := rfl
  simp only [refusal?, frames.covers, frames.wholeCodePoints, frames.partCodePoints, unbounded,
    Bool.false_and, Bool.false_eq_true, if_false]
  split
  · rfl
  · split
    · rfl
    · split
      · exact congrArg (some ∘ Except.ok) (MatchResult.shift_empty _ _ _).symm
      · rfl

section

variable [CharacterData]

theorem execute_shift (frames : whole.Frames part) (valid : processor.program.Valid)
    (undemanding : processor.program.Undemanding) (fuel start : Nat) (direction : Direction) :
    (processor.execute fuel whole (whole.lower + start) direction).map Prod.fst =
      ((processor.execute fuel part start direction).map Prod.fst).map
        (·.map (·.shift whole.lower)) := by
  have refusals := processor.refusal?_shift frames start direction
  cases busy : processor.busy with
  | true =>
      rw [execute_of_busy busy, execute_of_busy busy]
      rfl
  | false =>
      cases refusal : processor.refusal? part start direction with
      | some refused =>
          rw [refusal, Option.map_some] at refusals
          rw [execute_of_refusal busy refusal, execute_of_refusal busy refusals]
          rfl
      | none =>
          rw [refusal, Option.map_none] at refusals
          obtain ⟨rfl, admitted⟩ := refusal?_eq_none_iff.mp refusal
          obtain ⟨-, wholeAdmitted⟩ := refusal?_eq_none_iff.mp refusals
          have attempts : processor.attempt whole (whole.lower + start) =
              (processor.attempt part start).within whole := rfl
          have bounds := Attempt.Bounds.setOut valid admitted processor.state
          rw [execute_of_admitted busy admitted, execute_of_admitted busy wholeAdmitted, attempts,
            Attempt.setOut_shift _ whole processor.state processor.state,
            Attempt.run_shift frames valid undemanding bounds, Option.map_map, Option.map_map,
            Option.map_map, Option.map_map]
          refine Option.map_congr fun ended _ => ?_
          exact Attempt.result_shift _ whole ended.1 ended.2

/-- Executing a validated program that asks for no boundary between two limits of
a text, read by code points, ends as executing it on the octets between them by
themselves does: in the same status after as many instructions, with every span so
much further along, or with the same fault. So whatever else is changed of the
text, as long as these octets stay where they are, nothing changes. -/
theorem execute_confined (validated : processor.program.validate = .ok ())
    (undemanding : processor.program.Undemanding) {subject : Subject}
    (codePoints : subject.granularity = .codePoint) (covered : subject.covers start = true)
    (part : SegmentedText)
    (octets : part.octets = subject.text.octets.extract subject.lower subject.upper)
    (fuel : Nat) (direction : Direction) :
    (processor.execute fuel subject start direction).map Prod.fst =
        ((processor.execute fuel (.whole part .codePoint) (start - subject.lower)
          direction).map Prod.fst).map (·.map (·.shift subject.lower)) ∧
      ∀ other : Subject, other.granularity = .codePoint → other.lower = subject.lower →
        other.upper = subject.upper →
          other.text.octets.extract subject.lower subject.upper =
            subject.text.octets.extract subject.lower subject.upper →
          (processor.execute fuel other start direction).map Prod.fst =
            (processor.execute fuel subject start direction).map Prod.fst := by
  have valid := Program.validate_eq_ok_iff.mp validated
  have position : subject.lower + (start - subject.lower) = start :=
    Nat.add_sub_of_le (Subject.covers_iff.mp covered).1
  have alone : ∀ whole : Subject, whole.granularity = .codePoint →
      whole.lower = subject.lower →
      part.octets = whole.text.octets.extract whole.lower whole.upper →
        (processor.execute fuel whole start direction).map Prod.fst =
          ((processor.execute fuel (.whole part .codePoint) (start - subject.lower)
            direction).map Prod.fst).map (·.map (·.shift subject.lower)) := by
    intro whole granularity lower octets
    have frames : whole.Frames (.whole part .codePoint) := ⟨octets, rfl, rfl, granularity, rfl⟩
    have shifted := processor.execute_shift frames valid undemanding fuel
      (start - subject.lower) direction
    rwa [lower, position] at shifted
  have confined := alone subject codePoints rfl octets
  refine ⟨confined, fun other granularity lower upper same => ?_⟩
  rw [confined, alone other granularity lower (by rw [octets, lower, upper, same])]

def doubledFinder : Processor where
  program :=
    { instructions := #[.assertAnchor .startOfInput, .beginCapture 1,
        .matchAny .forward false false, .endCapture 1,
        .matchBackref .forward 1 true false, .assertAnchor .endOfInput, .accept]
      captureCount := 2 }
  options := {}

def cutSubject : Subject where
  text := .byUnits #[0xC3, 0xA9, 0xC3, 0xA9]
  lower := 1
  upper := 3
  granularity := .codePoint
  lower_le_upper := by decide
  upper_le_size := by decide

end

open scoped Repertoire in
theorem doubledFinder_confined :
    (doubledFinder.execute 7 cutSubject 1 .forward).map Prod.fst =
      some (.ok ⟨.accepted, ⟨#[some ⟨1, 3⟩, some ⟨1, 2⟩]⟩, 7⟩) := by
  have alone : (doubledFinder.execute 7 (.whole (.byUnits #[0xA9, 0xC3]) .codePoint) 0
      .forward).map Prod.fst =
        some (.ok ⟨.accepted, ⟨#[some ⟨0, 2⟩, some ⟨0, 1⟩]⟩, 7⟩) := by
    cbv
  have octets : (SegmentedText.byUnits #[0xA9, 0xC3]).octets =
      cutSubject.text.octets.extract cutSubject.lower cutSubject.upper := by
    decide +kernel
  have validated : doubledFinder.program.validate = .ok () := by cbv
  have undemanding : doubledFinder.program.Undemanding := by decide
  have covered : cutSubject.covers 1 = true := by decide
  rw [(execute_confined validated undemanding rfl covered _ octets 7 .forward).1]
  exact (congrArg (Option.map (Except.map (·.shift 1))) alone).trans (by cbv)

end Processor

end RegexMachine
