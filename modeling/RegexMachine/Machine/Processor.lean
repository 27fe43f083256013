import RegexMachine.Machine.Attempt
import RegexMachine.Program.Validation

/-! # Processors

A processor holds a validated program and runs attempts with it, one at a
time. The state that an attempt leaves behind stays in the processor, and the
next one begins afresh. -/

namespace RegexMachine

structure Options where
  /-- The greatest number of instructions of an attempt, or zero for no
  bound. -/
  budget : Nat := 0
  lower : Nat := 0
  /-- The upper limit of the scan, or the end of the text. -/
  upper : Option Nat := none
deriving DecidableEq, Repr

namespace Options

def subject (options : Options) (text : SegmentedText)
    (granularity : Granularity) : Except Fault Subject :=
  Subject.within text options.lower (options.upper.getD text.size) granularity

end Options

/-- Let an action run on something that is marked as busy meanwhile and as
free afterwards, however the action ends. What is busy already is not entered
again. The action is told the mark. -/
def exclusively {α : Type} (busy : Bool) (action : Bool → α) :
    Except Fault α × Bool :=
  if busy then (.error .reentrantMatch, busy) else (.ok (action true), false)

structure Processor where
  program : Program
  options : Options
  /-- What the last attempt has left behind. -/
  state : State := {}
  busy : Bool := false
deriving DecidableEq, Repr

namespace Processor

def new (program : Program) (options : Options) : Except Fault Processor := do
  program.validate
  return { program, options }

def withOptions (processor : Processor) (options : Options) : Processor :=
  { processor with options }

def attempt (processor : Processor) (subject : Subject) (start : Nat) :
    Attempt where
  program := processor.program
  subject := subject
  start := start
  budget := processor.options.budget

/-- Why an attempt is not even begun, if it is not: the fault of its caller,
or no match for a start outside of the limits or inside of a cluster. -/
def refusal? (processor : Processor) (subject : Subject) (start : Nat)
    (direction : Direction) : Option (Except Fault MatchResult) :=
  if direction ≠ processor.program.entry then
    some (.error .directionMismatch)
  else if subject.granularity ≠ processor.program.granularity then
    some (.error .granularityMismatch)
  else if !subject.covers start then some (.ok (.failed 0))
  else if subject.granularity == .grapheme && !subject.isBoundary start then
    some (.ok (.failed 0))
  else none

variable [CharacterData]

def conduct (processor : Processor) (fuel : Nat) (subject : Subject)
    (start : Nat) (direction : Direction) :
    Option (Except Fault MatchResult × Processor) :=
  match processor.refusal? subject start direction with
  | some result => some (result, processor)
  | none =>
      let attempt := processor.attempt subject start
      match attempt.run fuel (attempt.setOut processor.state) with
      | none => none
      | some (ending, state) =>
          some (attempt.result ending state, { processor with state })

def execute (processor : Processor) (fuel : Nat) (subject : Subject)
    (start : Nat) (direction : Direction) :
    Option (Except Fault MatchResult × Processor) :=
  let (outcome, busy) := exclusively processor.busy fun busy =>
    { processor with busy }.conduct fuel subject start direction
  match outcome with
  | .error fault => some (.error fault, processor)
  | .ok outcome => outcome.map fun (result, processor) =>
      (result, { processor with busy })

def executeText (processor : Processor) (fuel : Nat) (text : SegmentedText)
    (start : Nat) (direction : Direction) :
    Option (Except Fault MatchResult × Processor) :=
  match processor.options.subject text processor.program.granularity with
  | .error fault => some (.error fault, processor)
  | .ok subject => processor.execute fuel subject start direction

end Processor

end RegexMachine
