import RegexMachine.Proofs.Capture.Rollback
import RegexMachine.Proofs.Machine.Runs
import RegexMachine.Proofs.Program.Validity

/-! # What one instruction can do

Every effect of an instruction is one of a few changes of the state. Facts
about runs go through these changes instead of through the instructions. -/

namespace RegexMachine

namespace Subject

def MayEnd (subject : Subject) (boundary : Bool) (position : Nat) : Prop :=
  (boundary || subject.granularity == .grapheme) = true →
    subject.isBoundary position = true

end Subject

namespace Instruction

variable [CharacterData]

inductive Consumes (program : Program) (subject : Subject) (state : State) :
    Instruction → Nat → Prop
  | string {direction offset length caseless boundary literal position}
      (found : program.literal? offset length = some literal)
      (passes : subject.passLiteral state.position literal direction caseless =
        some position)
      (ends : subject.MayEnd boundary position) :
      Consumes program subject state
        (.matchString direction offset length caseless boundary) position
  | any {direction newline boundary position}
      (passes : subject.passUnit state.position direction
        (fun rune => newline || !rune.isLineTerminator) = some position)
      (ends : subject.MayEnd boundary position) :
      Consumes program subject state (.matchAny direction newline boundary) position
  | ofClass {direction runeClass negated boundary position}
      (passes : subject.passUnit state.position direction
        (fun rune => runeClass.contains rune != negated) = some position)
      (ends : subject.MayEnd boundary position) :
      Consumes program subject state
        (.matchClass direction runeClass negated boundary) position
  | ofSet {direction index negated caseless boundary set position}
      (found : program.runeSets[index.toNat]? = some set)
      (passes : subject.passUnit state.position direction
        (fun rune => set.contains (if caseless then rune.caseFold else rune) != negated) =
          some position)
      (ends : subject.MayEnd boundary position) :
      Consumes program subject state
        (.matchSet direction index negated caseless boundary) position
  | backref {direction group caseless boundary span position}
      (inside : group.toNat < state.journal.groups)
      (captured : state.journal.spanOf group.toNat = some span)
      (passes : subject.passLiteral state.position
        ⟨subject.text.octets, span.first, span.last⟩ direction caseless = some position)
      (ends : subject.MayEnd boundary position) :
      Consumes program subject state
        (.matchBackref direction group caseless boundary) position
  | advance {direction count position}
      (passes : subject.passUnits direction count.toNat state.position = some position)
      (ends : subject.MayEnd false position) :
      Consumes program subject state (.advance direction count) position

/-- The instruction lets the state go on as another one. The address of the
state is already that of the next instruction. -/
inductive Proceeds (program : Program) (subject : Subject) (state : State) :
    Instruction → State → Prop
  | consume {instruction position}
      (consumes : Consumes program subject state instruction position) :
      Proceeds program subject state instruction { state with position }
  | unset {direction group caseless boundary}
      (missing : state.journal.spanOf group.toNat = none) :
      Proceeds program subject state (.matchBackref direction group caseless boundary)
        state
  | anchor {anchor} (holds : subject.anchorHolds state.position anchor = true) :
      Proceeds program subject state (.assertAnchor anchor) state
  | jump {target address} (bound : program.target? target = some address) :
      Proceeds program subject state (.jump target) { state with address }
  | branch {target address} (bound : program.target? target = some address) :
      Proceeds program subject state (.branch target)
        { state.push state.address false with address }
  | save {target address} (bound : program.target? target = some address) :
      Proceeds program subject state (.save target) (state.push address true)
  | clear {save rest} (popped : state.saves.pop? = some (save, rest)) :
      Proceeds program subject state .clear { state with saves := rest }
  | commit {target goal save rest} (bound : program.target? target = some goal)
      (found : state.saves.commitTo? goal = some (save, rest)) (keep : Bool) :
      Proceeds program subject state (.clearThrough target keep)
        { state with
          position := save.position
          saves := rest
          journal := if keep then state.journal else state.journal.rollBack save.height }
  | start (counter : UInt16) :
      Proceeds program subject state (.repeatStart counter)
        { state with journal := state.journal.startCounter counter.toNat }
  | demand {greed min max counter exit}
      (below : countReaches (state.journal.count counter.toNat) min = false) :
      Proceeds program subject state (.quantify greed min max counter exit)
        (state.beginIteration counter)
  | full {greed min max counter exit address}
      (bound : program.target? exit = some address)
      (enough : countReaches (state.journal.count counter.toNat) min = true)
      (reached : countReaches (state.journal.count counter.toNat) max = true) :
      Proceeds program subject state (.quantify greed min max counter exit)
        { state with address }
  | more {min max counter exit goal} (bound : program.target? exit = some goal)
      (enough : countReaches (state.journal.count counter.toNat) min = true)
      (below : countReaches (state.journal.count counter.toNat) max = false) :
      Proceeds program subject state (.quantify .greedy min max counter exit)
        ((state.push goal false).beginIteration counter)
  | less {min max counter exit goal} (bound : program.target? exit = some goal)
      (enough : countReaches (state.journal.count counter.toNat) min = true)
      (below : countReaches (state.journal.count counter.toNat) max = false) :
      Proceeds program subject state (.quantify .lazy min max counter exit)
        { (state.beginIteration counter).push state.address false with address := goal }
  | again {counter head least address}
      (loops : program.loopMinimum? head = some least)
      (bound : program.target? head = some address)
      (moved : countReaches (state.journal.count counter.toNat) least = true →
        state.journal.origin counter.toNat ≠ some state.position) :
      Proceeds program subject state (.repeatEnd counter head)
        { state with
          journal := state.journal.setCount counter.toNat
            (nextCount (state.journal.count counter.toNat))
          address }
  | setStart (group : UInt16) (inside : group.toNat < state.journal.groups) :
      Proceeds program subject state (.beginCapture group)
        { state with
          journal := state.journal.setStart group.toNat (some state.position) }
  | setEnd (group : UInt16) (inside : group.toNat < state.journal.groups) :
      Proceeds program subject state (.endCapture group)
        { state with
          journal := state.journal.setEnd group.toNat (some state.position) }

inductive Misses (program : Program) (state : State) : Instruction → Prop
  | clear (empty : state.saves.pop? = none) : Misses program state .clear
  | commit {target goal} (bound : program.target? target = some goal)
      (missing : state.saves.commitTo? goal = none) (keep : Bool) :
      Misses program state (.clearThrough target keep)

inductive Allows (program : Program) (subject : Subject) (state : State)
    (instruction : Instruction) : Effect → Prop
  | proceed {next} (proceeds : instruction.Proceeds program subject state next) :
      Allows program subject state instruction (.proceed next)
  | fail : Allows program subject state instruction (.fail state)
  | accept (accepts : instruction = .accept) :
      Allows program subject state instruction (.accept state)
  | stop {last} (misses : instruction.Misses program state) :
      Allows program subject state instruction (.stop .missingSavePoint last)

variable {program : Program} {subject : Subject} {state : State}

private theorem allows_arrive {instruction : Instruction} {next : Option Nat}
    {boundary : Bool}
    (consumes : ∀ position, next = some position → subject.MayEnd boundary position →
      instruction.Consumes program subject state position) :
    instruction.Allows program subject state (state.arrive subject next boundary) := by
  unfold State.arrive
  cases next with
  | none => exact .fail
  | some position =>
      simp only
      split
      · exact .fail
      · next ends =>
          refine .proceed (.consume (consumes position rfl ?_))
          intro asked
          rw [asked] at ends
          simpa using ends

private theorem allows_quantify {greed : Greed} {min max : UInt32} {counter : UInt16}
    {exit : Label} (inside : counter.toNat < state.journal.counters)
    (binds : program.Binds exit) :
    (Instruction.quantify greed min max counter exit).Allows program subject state
      (state.quantify program greed min max counter exit) := by
  rcases binds with ⟨goal, bound, -⟩
  simp only [State.quantify, Nat.not_le_of_lt inside, if_false, State.goTo, bound]
  split
  · next below => exact .proceed (.demand (by simpa using below))
  · next enough =>
      have enough : countReaches (state.journal.count counter.toNat) min = true := by
        simpa using enough
      split
      · next reached => exact .proceed (.full bound enough reached)
      · next below =>
          have below : countReaches (state.journal.count counter.toNat) max = false := by
            simpa using below
          cases greed with
          | greedy => exact .proceed (.more bound enough below)
          | lazy => exact .proceed (.less bound enough below)

private theorem allows_endIteration {counter : UInt16} {head : Label}
    (inside : counter.toNat < state.journal.counters)
    (loops : ∃ address greed min max exit, program.target? head = some address ∧
      program.instructions[address]? = some (.quantify greed min max counter exit)) :
    (Instruction.repeatEnd counter head).Allows program subject state
      (state.endIteration program counter head) := by
  rcases loops with ⟨address, greed, least, max, exit, bound, found⟩
  have minimum : program.loopMinimum? head = some least := by
    simp [Program.loopMinimum?, bound, found]
  simp only [State.endIteration, minimum, Nat.not_le_of_lt inside, if_false, State.goTo,
    bound]
  split
  · exact .fail
  · next moved =>
      refine .proceed (.again minimum bound fun enough => ?_)
      rw [enough] at moved
      simpa using moved

private theorem allows_commit {target : Label} {keep : Bool}
    (binds : program.Binds target) :
    (Instruction.clearThrough target keep).Allows program subject state
      (state.commit program target keep) := by
  rcases binds with ⟨goal, bound, -⟩
  simp only [State.commit, bound]
  cases found : state.saves.commitTo? goal with
  | none => exact .stop (.commit bound found keep)
  | some committed => exact .proceed (.commit bound found keep)

/-- An instruction whose operands resolve does one of the listed things. In
particular it never refers outside of its program. -/
theorem allows_step {instruction : Instruction} (resolves : instruction.Resolves program)
    (sized : state.journal.Sized program.captureCount program.counterCount) :
    instruction.Allows program subject state
      (instruction.step program subject state) := by
  have groups := sized.groups_eq
  have counters := sized.counters_eq
  cases instruction with
  | matchString direction offset length caseless boundary =>
      have found : ∃ literal, program.literal? offset length = some literal :=
        ⟨_, if_pos resolves⟩
      rcases found with ⟨literal, found⟩
      simp only [step, found]
      exact allows_arrive fun _ passes ends => .string found passes ends
  | matchAny => exact allows_arrive fun _ passes ends => .any passes ends
  | matchClass => exact allows_arrive fun _ passes ends => .ofClass passes ends
  | matchSet direction index negated caseless boundary =>
      have found := Array.getElem?_eq_getElem resolves
      simp only [step, found]
      exact allows_arrive fun _ passes ends => .ofSet found passes ends
  | matchBackref direction group caseless boundary =>
      have inside : group.toNat < state.journal.groups := by
        rw [groups]
        exact resolves.2
      simp only [step, if_neg (Nat.not_le_of_lt inside)]
      cases captured : state.journal.spanOf group.toNat with
      | none => exact .proceed (.unset captured)
      | some span =>
          exact allows_arrive fun _ passes ends => .backref inside captured passes ends
  | advance => exact allows_arrive fun _ passes ends => .advance passes ends
  | jump target =>
      rcases resolves with ⟨address, bound, -⟩
      simp only [step, State.goTo, bound]
      exact .proceed (.jump bound)
  | branch target =>
      rcases resolves with ⟨address, bound, -⟩
      simp only [step, State.goTo, bound]
      exact .proceed (.branch bound)
  | save target =>
      rcases resolves with ⟨address, bound, -⟩
      simp only [step, bound]
      exact .proceed (.save bound)
  | clear =>
      simp only [step]
      cases popped : state.saves.pop? with
      | none => exact .stop (.clear popped)
      | some save => exact .proceed (.clear popped)
  | clearThrough target keep => exact allows_commit resolves
  | repeatStart counter =>
      rw [step, if_pos (by rw [counters]; exact resolves)]
      exact .proceed (.start counter)
  | quantify greed min max counter exit =>
      exact allows_quantify (by rw [counters]; exact resolves.1) resolves.2.1
  | repeatEnd counter head =>
      exact allows_endIteration (by rw [counters]; exact resolves.1) resolves.2
  | beginCapture group =>
      have inside : group.toNat < state.journal.groups := by
        rw [groups]
        exact resolves.2
      rw [step, State.capturing, if_pos inside]
      exact .proceed (.setStart group inside)
  | endCapture group =>
      have inside : group.toNat < state.journal.groups := by
        rw [groups]
        exact resolves.2
      rw [step, State.capturing, if_pos inside]
      exact .proceed (.setEnd group inside)
  | assertAnchor anchor =>
      simp only [step]
      split
      · next holds => exact .proceed (.anchor holds)
      · exact .fail
  | fail => exact .fail
  | accept => exact .accept rfl

end Instruction

/-! ## Turns -/

def State.counted (state : State) : State :=
  { state with address := state.address + 1, steps := state.steps + 1 }

namespace Attempt

variable {attempt : Attempt} {state next final : State}

variable [CharacterData]

theorem turn_of_fetched {instruction : Instruction}
    (unexhausted : attempt.exhausted state = false)
    (found : attempt.program.instructions[state.address]? = some instruction) :
    attempt.turn state =
      resolve (instruction.step attempt.program attempt.subject state.counted) := by
  simp only [turn, unexhausted, fetch?, found, Bool.false_eq_true, if_false]
  rfl

theorem turn_cases (valid : attempt.program.Valid)
    (sized : state.journal.Sized attempt.program.captureCount attempt.program.counterCount)
    (inside : state.address < attempt.program.instructions.size) :
    attempt.exhausted state = true ∧
        attempt.turn state = .done (.ok .budgetExceeded) state ∨
      ∃ instruction effect,
        attempt.program.instructions[state.address]? = some instruction ∧
          instruction.Resolves attempt.program ∧
          instruction.Allows attempt.program attempt.subject state.counted effect ∧
          attempt.turn state = resolve effect := by
  cases exhausted : attempt.exhausted state with
  | true => exact .inl ⟨rfl, by simp [turn, exhausted]⟩
  | false =>
      right
      have found := Array.getElem?_eq_getElem inside
      have resolves := valid.resolves _ _ found
      have counted : state.counted.journal.Sized attempt.program.captureCount
          attempt.program.counterCount := sized
      exact ⟨_, _, found, resolves, Instruction.allows_step resolves counted,
        turn_of_fetched exhausted found⟩

theorem Next.cases (step : attempt.Next state next) (valid : attempt.program.Valid)
    (sized : state.journal.Sized attempt.program.captureCount attempt.program.counterCount)
    (inside : state.address < attempt.program.instructions.size) :
    ∃ instruction, attempt.program.instructions[state.address]? = some instruction ∧
      instruction.Resolves attempt.program ∧
        (instruction.Proceeds attempt.program attempt.subject state.counted next ∨
          state.counted.backtrack? = some next) := by
  rcases turn_cases valid sized inside with
    ⟨-, stopped⟩ | ⟨instruction, effect, found, resolves, allows, turned⟩
  · rw [Next, stopped] at step
    cases step
  · refine ⟨instruction, found, resolves, ?_⟩
    rw [Next, turned] at step
    cases allows with
    | proceed proceeds =>
        cases step
        exact .inl proceeds
    | fail =>
        right
        simp only [resolve] at step
        split at step
        · next back =>
            cases step
            exact back
        · cases step
    | accept => cases step
    | stop => cases step

end Attempt

end RegexMachine
