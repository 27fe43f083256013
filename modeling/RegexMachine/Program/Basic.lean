import RegexMachine.Direction
import RegexMachine.Rune.Property
import RegexMachine.Rune.Set
import RegexMachine.Text.Octets

/-! # Programs

A program is a row of instructions together with the pools that they refer
to: a table of branch targets, the octets of all literals and the rune sets.
Operands are words of the width that their kind has, so a program cannot hold
an operand that is too large. -/

namespace RegexMachine

/-- A branch target by its place in the table of targets. -/
structure Label where
  id : UInt32
deriving DecidableEq, Repr

/-- One instruction. Those that consume text carry the direction in which
they do so. -/
inductive Instruction where
  | matchString (direction : Direction) (offset : UInt32) (length : UInt16)
      (caseless boundary : Bool)
  /-- Match any unit, and a line terminator only if `newline` is set. -/
  | matchAny (direction : Direction) (newline boundary : Bool)
  | matchClass (direction : Direction) (runeClass : RuneClass)
      (negated boundary : Bool)
  | matchSet (direction : Direction) (index : UInt16)
      (negated caseless boundary : Bool)
  | matchBackref (direction : Direction) (group : UInt16)
      (caseless boundary : Bool)
  | advance (direction : Direction) (count : UInt32)
  | jump (target : Label)
  /-- Go on elsewhere, and on failure here. -/
  | branch (target : Label)
  /-- Push a marked save point that resumes elsewhere. -/
  | save (target : Label)
  | clear
  /-- Discard the save points down to the newest marked one that resumes at
  the target, and return to its position. -/
  | clearThrough (target : Label) (keepCaptures : Bool)
  | repeatStart (counter : UInt16)
  | quantify (greed : Greed) (min max : UInt32) (counter : UInt16)
      (exit : Label)
  /-- Count an iteration and return to the head of the loop. -/
  | repeatEnd (counter : UInt16) (head : Label)
  | beginCapture (group : UInt16)
  | endCapture (group : UInt16)
  | assertAnchor (anchor : Anchor)
  /-- Give up this attempt and return to the newest save point. -/
  | fail
  | accept
deriving DecidableEq, Repr

namespace Instruction

/-- Whether control never passes on to the next instruction, so that the
instruction may come last. -/
def closesProgram : Instruction → Bool
  | .accept | .fail | .jump _ => true
  | _ => false

end Instruction

structure Program where
  instructions : Array Instruction := #[]
  /-- Where each label is bound, if it is. -/
  targets : Array (Option Nat) := #[]
  /-- The octets of the literals, end to end. -/
  data : Octets := #[]
  runeSets : Array RuneSet := #[]
  /-- The number of groups, counting the whole match as group zero. -/
  captureCount : Nat := 1
  counterCount : Nat := 0
  granularity : Granularity := .codePoint
  /-- The direction in which the program consumes at its top level. -/
  entry : Direction := .forward
deriving DecidableEq, Repr

instance : Inhabited Program := ⟨{}⟩

namespace Program

def target? (program : Program) (label : Label) : Option Nat :=
  program.targets[label.id.toNat]?.join

def literal? (program : Program) (offset : UInt32) (length : UInt16) :
    Option Slice :=
  if offset.toNat + length.toNat ≤ program.data.size then
    some ⟨program.data, offset.toNat, offset.toNat + length.toNat⟩
  else none

/-- The least number of iterations of the loop whose quantifier a label is
bound to. -/
def loopMinimum? (program : Program) (head : Label) : Option UInt32 :=
  match (program.target? head).bind (program.instructions[·]?) with
  | some (.quantify _ min _ _ _) => some min
  | _ => none

end Program

end RegexMachine
