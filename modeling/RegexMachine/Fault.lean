/-! # Faults

Everything that can go wrong, as one cause per constructor. The wording of a
fault is a function of its cause, so statements speak about causes and the
text stands in one place. -/

namespace RegexMachine

/-- Why validation turns a program away, together with the place that shows it.
Addresses count instructions from zero. -/
inductive Rejection where
  /-- There is no instruction at all. -/
  | empty
  /-- The last instruction lets control run past the end. -/
  | openEnded
  /-- A label is unbound, unknown or bound past the last instruction. -/
  | target (address : Nat)
  /-- A group operand is zero or not below the number of groups. -/
  | group (number address : Nat)
  /-- A counter operand is not below the number of counters. -/
  | counter (number address : Nat)
  /-- The head of a loop is not the quantifier of the same counter. -/
  | loopHead (address : Nat)
  /-- A literal or rune set operand lies outside of its pool. -/
  | pool (address : Nat)
  /-- The least number of iterations exceeds the greatest. -/
  | bounds (address : Nat)
  /-- A save point is discarded where there may be none. -/
  | bareClear (address : Nat)
  /-- A commit has no marker that it could be waiting for. -/
  | unmatchedCommit (address : Nat)
deriving DecidableEq, Repr

inductive Fault where
  /-- A length or an offset is too large for its operand. -/
  | programLimit
  /-- There are too many labels, groups, counters or sets, or a number does not
  fit its type. -/
  | resourceLimit
  /-- A match was started on a processor that is in the middle of one. -/
  | reentrantMatch
  /-- The stack of save points lacks what an instruction discards. -/
  | missingSavePoint
  /-- Scan limits are reversed or lie outside of the text. -/
  | subjectRange
  /-- The first rune of a range exceeds its last. -/
  | characterRange
  /-- A program was asked to run against the direction it was encoded for. -/
  | directionMismatch
  /-- A program met a subject cut into units of the other kind. -/
  | granularityMismatch
  /-- A label is unknown or already bound. -/
  | branchTarget
  | captureGroup
  | quantifier
  /-- An encoder was used again after it had finished. -/
  | finished
  /-- A group was asked for that a capture table does not have. -/
  | outsideTable
  /-- An instruction refers to something its program does not have. No program
  that passes validation gets here. -/
  | badReference
  /-- Validation turned the program away. -/
  | rejected (reason : Rejection)
deriving DecidableEq, Repr

namespace Rejection

def message : Rejection → String
  | empty => "invalid or empty program"
  | openEnded => "program does not end in accept, fail or jump"
  | target _ => "branch target is unbound or out of range"
  | group _ _ => "capture group index is out of range"
  | counter _ _ | loopHead _ => "repetition counter index is out of range"
  | pool _ => "literal or rune set reference lies outside of the program pools"
  | bounds _ => "quantifier minimum exceeds its maximum"
  | bareClear _ | unmatchedCommit _ => "commit has no save point to discard"

def detail : Rejection → String
  | empty => "program holds no instructions"
  | openEnded => "program falls off its last instruction"
  | target address | pool address | bounds address =>
      "instruction " ++ toString address
  | group number address =>
      "group " ++ toString number ++ " at instruction " ++ toString address
  | counter number address =>
      "counter " ++ toString number ++ " at instruction " ++ toString address
  | loopHead address =>
      "repeat_end at instruction " ++ toString address ++
        " does not loop back to its quantify"
  | bareClear address =>
      "clear at instruction " ++ toString address ++
        " may run with an empty stack"
  | unmatchedCommit address =>
      "clear_through at instruction " ++ toString address ++
        " has no matching save"

end Rejection

namespace Fault

def message : Fault → String
  | programLimit => "length or offset of program exceeds internal limit"
  | resourceLimit => "number of resources exceeds internal limit"
  | reentrantMatch => "matching is non-reenterant"
  | missingSavePoint =>
      "save point stack does not hold the expected marker"
  | subjectRange => "scan limits lie outside of the subject text"
  | characterRange => "character range is reversed"
  | directionMismatch =>
      "execution direction differs from the direction the program was encoded for"
  | granularityMismatch =>
      "subject unit granularity differs from the granularity the program was encoded for"
  | branchTarget => (Rejection.target 0).message
  | captureGroup => (Rejection.group 0 0).message
  | quantifier => (Rejection.bounds 0).message
  | finished => "encoder has already finished its program"
  | outsideTable => "group lies outside of the capture table"
  | badReference => "instruction refers outside of its program"
  | rejected reason => reason.message

end Fault

end RegexMachine
