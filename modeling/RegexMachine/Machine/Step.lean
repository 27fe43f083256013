import RegexMachine.Machine.State
import RegexMachine.Program.Basic
import RegexMachine.Text.Subject

/-! # One instruction

What an instruction does to a state whose address is already that of the
instruction after it. An operand that names nothing in the program is a fault
of its own, so nothing is ever read outside of a table. -/

namespace RegexMachine

inductive Effect where
  | proceed (state : State)
  | fail (state : State)
  | accept (state : State)
  | stop (fault : Fault) (state : State)

namespace State

def goTo (state : State) (program : Program) (label : Label) : Effect :=
  match program.target? label with
  | some address => .proceed { state with address }
  | none => .stop .badReference state

/-- Move to where a match has ended, if it has and the position is one on
which the instruction may end. Among clusters only boundaries are. -/
def arrive (state : State) (subject : Subject) (next : Option Nat)
    (boundary : Bool) : Effect :=
  match next with
  | none => .fail state
  | some position =>
      if (boundary || subject.granularity == .grapheme) &&
          !subject.isBoundary position then
        .fail state
      else .proceed { state with position }

def capturing (state : State) (group : UInt16)
    (write : Journal → Nat → Option Nat → Journal) : Effect :=
  if group.toNat < state.journal.groups then
    .proceed { state with
      journal := write state.journal group.toNat (some state.position) }
  else .stop .badReference state

def beginIteration (state : State) (counter : UInt16) : State :=
  { state with
    journal := state.journal.setOrigin counter.toNat (some state.position) }

end State

/-- Whether a count has reached a bound. A count that was never set has
reached every bound. -/
def countReaches (count : Option Nat) (bound : UInt32) : Bool :=
  count.all (bound.toNat ≤ ·)

/-- The count after one more iteration. What was never set comes before
zero. -/
def nextCount (count : Option Nat) : Nat :=
  count.elim 0 (· + 1)

/-- Decide at the head of a loop whether its body is entered, left out, or
either, in the order of preference. -/
def State.quantify (state : State) (program : Program) (greed : Greed)
    (min max : UInt32) (counter : UInt16) (exit : Label) : Effect :=
  if state.journal.counters ≤ counter.toNat then .stop .badReference state
  else
    let count := state.journal.count counter.toNat
    if !countReaches count min then .proceed (state.beginIteration counter)
    else if countReaches count max then state.goTo program exit
    else
      match greed with
      | .greedy =>
          match program.target? exit with
          | some goal =>
              .proceed ((state.push goal false).beginIteration counter)
          | none => .stop .badReference state
      | .lazy =>
          let state := state.beginIteration counter
          (state.push state.address false).goTo program exit

/-- Count an iteration, unless it was not needed and has not moved. -/
def State.endIteration (state : State) (program : Program) (counter : UInt16)
    (head : Label) : Effect :=
  match program.loopMinimum? head with
  | none => .stop .badReference state
  | some least =>
      if state.journal.counters ≤ counter.toNat then .stop .badReference state
      else
        let count := state.journal.count counter.toNat
        if countReaches count least &&
            state.journal.origin counter.toNat == some state.position then
          .fail state
        else
          let journal := state.journal.setCount counter.toNat (nextCount count)
          { state with journal }.goTo program head

def State.commit (state : State) (program : Program) (target : Label)
    (keepCaptures : Bool) : Effect :=
  match program.target? target with
  | none => .stop .badReference state
  | some goal =>
      match state.saves.commitTo? goal with
      | none => .stop .missingSavePoint { state with saves := .empty }
      | some (save, rest) =>
          let journal :=
            if keepCaptures then state.journal
            else state.journal.rollBack save.height
          .proceed { state with position := save.position, saves := rest, journal }

variable [CharacterData]

def Instruction.step (instruction : Instruction) (program : Program)
    (subject : Subject) (state : State) : Effect :=
  match instruction with
  | .matchString direction offset length caseless boundary =>
      match program.literal? offset length with
      | none => .stop .badReference state
      | some literal =>
          state.arrive subject
            (subject.passLiteral state.position literal direction caseless)
            boundary
  | .matchAny direction newline boundary =>
      state.arrive subject
        (subject.passUnit state.position direction fun rune =>
          newline || !rune.isLineTerminator)
        boundary
  | .matchClass direction runeClass negated boundary =>
      state.arrive subject
        (subject.passUnit state.position direction fun rune =>
          runeClass.contains rune != negated)
        boundary
  | .matchSet direction index negated caseless boundary =>
      match program.runeSets[index.toNat]? with
      | none => .stop .badReference state
      | some set =>
          state.arrive subject
            (subject.passUnit state.position direction fun rune =>
              set.contains (if caseless then rune.caseFold else rune) != negated)
            boundary
  | .matchBackref direction group caseless boundary =>
      if state.journal.groups ≤ group.toNat then .stop .badReference state
      else
        match state.journal.spanOf group.toNat with
        | none => .proceed state
        | some span =>
            let literal : Slice := ⟨subject.text.octets, span.first, span.last⟩
            state.arrive subject
              (subject.passLiteral state.position literal direction caseless)
              boundary
  | .advance direction count =>
      state.arrive subject
        (subject.passUnits direction count.toNat state.position) false
  | .jump target => state.goTo program target
  | .branch target => (state.push state.address false).goTo program target
  | .save target =>
      match program.target? target with
      | some goal => .proceed (state.push goal true)
      | none => .stop .badReference state
  | .clear =>
      match state.saves.pop? with
      | none => .stop .missingSavePoint state
      | some (_, rest) => .proceed { state with saves := rest }
  | .clearThrough target keepCaptures =>
      state.commit program target keepCaptures
  | .repeatStart counter =>
      if counter.toNat < state.journal.counters then
        .proceed { state with
          journal := state.journal.startCounter counter.toNat }
      else .stop .badReference state
  | .quantify greed min max counter exit =>
      state.quantify program greed min max counter exit
  | .repeatEnd counter head => state.endIteration program counter head
  | .beginCapture group => state.capturing group Journal.setStart
  | .endCapture group => state.capturing group Journal.setEnd
  | .assertAnchor anchor =>
      if subject.anchorHolds state.position anchor then .proceed state
      else .fail state
  | .fail => .fail state
  | .accept => .accept state

end RegexMachine
