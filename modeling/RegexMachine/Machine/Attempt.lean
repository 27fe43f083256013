import RegexMachine.Machine.Step

/-! # Attempts

An attempt runs a program on a subject from one start. It goes on turn by
turn until an instruction accepts or stops with a fault, until nothing is left
to return to, or until the budget of instructions is used up. -/

namespace RegexMachine

inductive MatchStatus where
  | accepted
  | noMatch
  | budgetExceeded
deriving DecidableEq, Repr

namespace MatchStatus

def name : MatchStatus → String
  | accepted => "accepted"
  | noMatch => "no_match"
  | budgetExceeded => "budget_exceeded"

end MatchStatus

structure MatchResult where
  status : MatchStatus
  captures : CaptureTable
  steps : Nat
deriving DecidableEq, Repr

namespace MatchResult

def failed (steps : Nat) : MatchResult := ⟨.noMatch, .empty, steps⟩

/-- The extent of the whole match, or an empty span where there is none. -/
def range (result : MatchResult) : Span :=
  (result.captures.groups[0]?.join).getD ⟨0, 0⟩

end MatchResult

structure Attempt where
  program : Program
  subject : Subject
  start : Nat
  /-- The greatest number of instructions, or zero for no bound. -/
  budget : Nat

inductive Turn where
  | next (state : State)
  | done (ending : Except Fault MatchStatus) (state : State)

namespace Attempt

/-- The state from which an attempt sets out, made of the one that an earlier
attempt has left. Nothing of that one stays. -/
def setOut (attempt : Attempt) (left : State) : State :=
  { left with
    address := 0
    position := attempt.start
    steps := 0
    saves := .empty
    journal := left.journal.reset attempt.program.captureCount
      attempt.program.counterCount }

def exhausted (attempt : Attempt) (state : State) : Bool :=
  attempt.budget != 0 && attempt.budget ≤ state.steps

def fetch? (attempt : Attempt) (state : State) : Option (Instruction × State) :=
  match attempt.program.instructions[state.address]? with
  | none => none
  | some instruction => some (instruction,
      { state with address := state.address + 1, steps := state.steps + 1 })

def resolve : Effect → Turn
  | .proceed state => .next state
  | .fail state =>
      match state.backtrack? with
      | some state => .next state
      | none => .done (.ok .noMatch) state
  | .accept state => .done (.ok .accepted) state
  | .stop fault state => .done (.error fault) state

variable [CharacterData]

def turn (attempt : Attempt) (state : State) : Turn :=
  if attempt.exhausted state then .done (.ok .budgetExceeded) state
  else
    match attempt.fetch? state with
    | none => .done (.error .badReference) state
    | some (instruction, state) =>
        resolve (instruction.step attempt.program attempt.subject state)

def run (attempt : Attempt) :
    Nat → State → Option (Except Fault MatchStatus × State)
  | 0, _ => none
  | fuel + 1, state =>
      match attempt.turn state with
      | .next state => attempt.run fuel state
      | .done ending state => some (ending, state)

/-- The result of an attempt that is over. Group zero lies between the start
and the last position, in whichever order they are. -/
def result (attempt : Attempt) (ending : Except Fault MatchStatus)
    (state : State) : Except Fault MatchResult := do
  match ← ending with
  | .accepted =>
      let captures ← state.journal.toTable
        (min attempt.start state.position) (max attempt.start state.position)
      return ⟨.accepted, captures, state.steps⟩
  | status => return ⟨status, .empty, state.steps⟩

end Attempt

end RegexMachine
