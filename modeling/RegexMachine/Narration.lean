import RegexMachine.Machine.Search
import RegexMachine.Pattern.Fragment

/-! # Narration

What the machine reports while it works, as a list of events. An event says
what has happened; its level and its text are functions of it. The narration
of an attempt is told by taking its turns once more, so running an attempt
does not depend on whether anybody listens. -/

namespace RegexMachine

inductive Level where
  | trace
  | debug
  | info
  | warn
  | error
  | critical
  | off
deriving DecidableEq, Repr

namespace Level

def name : Level → String
  | trace => "trace"
  | debug => "debug"
  | info => "info"
  | warn => "warn"
  | error => "error"
  | critical => "critical"
  | off => "off"

def rank : Level → Nat
  | trace => 0
  | debug => 1
  | info => 2
  | warn => 3
  | error => 4
  | critical => 5
  | off => 6

/-- Whether a listener who asked for a level hears of an event of another.
Who has switched off hears nothing. -/
def admits (asked level : Level) : Bool :=
  asked != .off && asked.rank ≤ level.rank

end Level

inductive Event where
  | rejected (reason : Rejection)
  | encoded (entry : Direction) (instructions groups counters : Nat)
  | unsegmented
  | begun (direction : Direction) (start lower upper : Nat)
  | instruction (address position saves height : Nat)
  | exhausted (budget position start : Nat)
  | ended (direction : Direction) (start : Nat) (status : MatchStatus)
      (steps : Nat)
  /-- A search for all matches has given up. -/
  | searchStopped (count : Nat)
deriving DecidableEq, Repr

namespace Event

def level : Event → Level
  | rejected _ | unsegmented => .error
  | encoded .. | begun .. | ended .. => .debug
  | instruction .. => .trace
  | exhausted .. | searchStopped _ => .warn

def text : Event → String
  | rejected reason =>
      "rejected program: " ++ reason.message ++ " (" ++ reason.detail ++ ")"
  | encoded entry instructions groups counters =>
      "encoded " ++ entry.name ++ " program: " ++ toString instructions ++
        " instructions, " ++ toString groups ++ " groups, " ++
        toString counters ++ " counters"
  | unsegmented =>
      "grapheme segmentation failed (U_MISSING_RESOURCE_ERROR); " ++
        "using code point boundaries"
  | begun direction start lower upper =>
      direction.name ++ " attempt at " ++ toString start ++ " within [" ++
        toString lower ++ ", " ++ toString upper ++ "]"
  | instruction address position saves height =>
      "pc=" ++ toString address ++ " sr=" ++ toString position ++ " saves=" ++
        toString saves ++ " journal=" ++ toString height
  | exhausted budget position start =>
      "step budget of " ++ toString budget ++ " exhausted at position " ++
        toString position ++ " after start " ++ toString start
  | ended direction start status steps =>
      direction.name ++ " attempt at " ++ toString start ++ " finished " ++
        status.name ++ " after " ++ toString steps ++ " steps"
  | searchStopped count =>
      "search stopped after " ++ toString count ++
        " matches: step budget exceeded"

end Event

structure Narration where
  events : Array Event := #[]
  /-- The clusters of the subject could not be found, and nobody has been told
  yet. It is told when boundaries are first asked for. -/
  unsegmented : Bool := false
deriving DecidableEq, Repr

namespace Event

def heard (asked : Level) (events : Array Event) : List Event :=
  events.toList.filter fun event => asked.admits event.level

end Event

namespace Narration

def report (narration : Narration) (event : Event) : Narration :=
  { narration with events := narration.events.push event }

def consult (narration : Narration) : Narration :=
  if narration.unsegmented then
    { narration.report .unsegmented with unsegmented := false }
  else narration

def consultIf (narration : Narration) (condition : Bool) : Narration :=
  if condition then narration.consult else narration

end Narration

namespace Subject

def unitConsults (subject : Subject) (position : Nat) : Bool :=
  subject.granularity == .grapheme && subject.covers position

end Subject

namespace Instruction

/-- The instruction without its demand to end on a boundary, if it makes
one. -/
def undemanding? : Instruction → Option Instruction
  | .matchString direction offset length caseless true =>
      some (.matchString direction offset length caseless false)
  | .matchAny direction newline true => some (.matchAny direction newline false)
  | .matchClass direction runeClass negated true =>
      some (.matchClass direction runeClass negated false)
  | .matchSet direction index negated caseless true =>
      some (.matchSet direction index negated caseless false)
  | .matchBackref direction group caseless true =>
      some (.matchBackref direction group caseless false)
  | _ => none

/-- Whether the instruction refers back to a group that has captured nothing,
so that it compares nothing. -/
def comparesNothing (instruction : Instruction) (state : State) : Bool :=
  match instruction with
  | .matchBackref _ group _ _ => (state.journal.spanOf group.toNat).isNone
  | _ => false

variable [CharacterData]

def consults (instruction : Instruction) (program : Program)
    (subject : Subject) (state : State) : Bool :=
  match instruction.undemanding? with
  | none => false
  | some undemanding =>
      !instruction.comparesNothing state &&
        match undemanding.step program subject state with
        | .proceed _ => true
        | _ => false

end Instruction

namespace Attempt

variable [CharacterData]

def narrateTurn (attempt : Attempt) (narration : Narration) (state : State) :
    Narration :=
  if attempt.exhausted state then
    narration.report (.exhausted attempt.budget state.position attempt.start)
  else
    match attempt.fetch? state with
    | none => narration
    | some (instruction, fetched) =>
        (narration.report (.instruction state.address state.position
          state.saves.size state.journal.height)).consultIf
          (instruction.consults attempt.program attempt.subject fetched)

def narrate (attempt : Attempt) : Nat → Narration → State → Narration
  | 0, narration, _ => narration
  | fuel + 1, narration, state =>
      let narration := attempt.narrateTurn narration state
      match attempt.turn state with
      | .next state => attempt.narrate fuel narration state
      | .done ending state =>
          match attempt.result ending state with
          | .ok result =>
              narration.report (.ended attempt.program.entry attempt.start
                result.status result.steps)
          | .error _ => narration

end Attempt

namespace Processor

/-- Whether admitting a start asks for boundaries: the caller is not at fault
and the start lies between the limits of a subject that is cut into
clusters. -/
def admissionConsults (processor : Processor) (subject : Subject) (start : Nat)
    (direction : Direction) : Bool :=
  !processor.busy && direction == processor.program.entry &&
    subject.granularity == processor.program.granularity &&
    subject.unitConsults start

variable [CharacterData]

def narrate (processor : Processor) (fuel : Nat) (subject : Subject)
    (start : Nat) (direction : Direction) (narration : Narration) : Narration :=
  let narration := narration.consultIf
    (processor.admissionConsults subject start direction)
  if processor.busy || (processor.refusal? subject start direction).isSome then
    narration
  else
    let attempt := processor.attempt subject start
    attempt.narrate fuel
      (narration.report (.begun direction start subject.lower subject.upper))
      (attempt.setOut processor.state)

def narrateScan (processor : Processor) (fuel : Nat) (subject : Subject)
    (narration : Narration) (scan : Scan) : Narration :=
  scan.starts.reverse.foldl (fun narration start =>
    processor.narrate fuel subject start processor.program.entry narration)
    narration

def narrateScans (processor : Processor) (fuel : Nat) (subject : Subject)
    (narration : Narration) (scans : List Scan) : Narration :=
  let narration := scans.foldl (processor.narrateScan fuel subject) narration
  let statuses : List (Option MatchStatus) :=
    scans.map fun scan => scan.result.toOption.map (·.status)
  if statuses.getLast? = some (some .budgetExceeded) then
    narration.report (.searchStopped (statuses.count (some .accepted)))
  else narration

end Processor

namespace Program

def validationEvents (program : Program) : Array Event :=
  match program.defect? with
  | some rejection => #[.rejected rejection]
  | none => #[]

end Program

namespace Encoder

def finishEvents (encoder : Encoder) : Array Event :=
  if encoder.finished then #[]
  else
    let program := encoder.program
    match program.defect? with
    | some rejection => #[.rejected rejection]
    | none => #[.encoded program.entry program.instructions.size
        program.captureCount program.counterCount]

end Encoder

namespace Fragment

variable [CharacterData]

/-- What compiling a fragment reports. Nothing is reported of one that cannot
be encoded. -/
def compileEvents (fragment : Fragment) (entry : Direction)
    (granularity : Granularity) : Array Event :=
  match fragment.encode entry (.new entry granularity) with
  | .ok _ encoder => encoder.finishEvents
  | .error _ _ => #[]

end Fragment

end RegexMachine
