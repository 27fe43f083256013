import RegexMachine.Fault
import RegexMachine.Program.Basic

/-! # Depth of the save point stack

For every instruction that control can reach, the analysis finds a number of
save points that are on the stack there whatever path led to it. It starts
from an empty stack before the first instruction and lowers the numbers,
sweep after sweep, until they settle. Discarding instructions that could find
too little to discard are turned away. -/

namespace RegexMachine

/-- What is known about the stack before each instruction. -/
structure SaveDepths where
  /-- The least number of save points before an instruction, absent as long
  as no path to it is known. -/
  depth : Array (Option Nat)
  /-- The least number of save points below a marked one that resumes at an
  instruction. -/
  marker : Array (Option Nat)
deriving DecidableEq, Repr

namespace SaveDepths

def initial (size : Nat) : SaveDepths where
  depth := (Array.replicate size none).setIfInBounds 0 (some 0)
  marker := Array.replicate size none

def lowerEntry (table : Array (Option Nat)) (address bound : Nat) :
    Array (Option Nat) :=
  table.modify address fun known => some (known.elim bound (min bound))

def reach (depths : SaveDepths) (address bound : Nat) : SaveDepths :=
  { depths with depth := lowerEntry depths.depth address bound }

/-- Let a marked save point that resumes at an address lie above `bound`
others. -/
def mark (depths : SaveDepths) (address bound : Nat) : SaveDepths :=
  { depths with marker := lowerEntry depths.marker address bound }

def depth? (depths : SaveDepths) (address : Nat) : Option Nat :=
  depths.depth[address]?.join

def marker? (depths : SaveDepths) (address : Nat) : Option Nat :=
  depths.marker[address]?.join

def entries (depths : SaveDepths) : List (Option Nat) :=
  depths.depth.toList ++ depths.marker.toList

def absent (depths : SaveDepths) : Nat := depths.entries.count none

def sumOf : List (Option Nat) → Nat
  | [] => 0
  | entry :: rest => entry.getD 0 + sumOf rest

def total (depths : SaveDepths) : Nat := sumOf depths.entries

/-- Whether entries have appeared or, if none has, become less. -/
def improves (next depths : SaveDepths) : Bool :=
  next.absent < depths.absent ||
    (next.absent == depths.absent && next.total < depths.total)

end SaveDepths

namespace Program

def resumePoints (program : Program) : Array Bool :=
  program.instructions.foldl (fun resumed instruction =>
    match instruction with
    | .save target =>
        match program.target? target with
        | some address => resumed.setIfInBounds address true
        | none => resumed
    | _ => resumed) (Array.replicate program.instructions.size false)

/-- What an instruction does to the depths when control reaches it with
`depth` save points. -/
def transfer (program : Program) (resumed : Array Bool) (address depth : Nat)
    (instruction : Instruction) (depths : SaveDepths) :
    Except Rejection SaveDepths :=
  match instruction with
  | .jump target =>
      .ok <| match program.target? target with
      | some goal => depths.reach goal depth
      | none => depths
  | .branch target =>
      .ok <| match program.target? target with
      | some goal => (depths.reach goal (depth + 1)).reach (address + 1) depth
      | none => depths
  | .save target =>
      .ok <| match program.target? target with
      | some goal =>
          ((depths.reach (address + 1) (depth + 1)).reach goal depth).mark goal depth
      | none => depths
  | .clear =>
      if depth = 0 then .error (.bareClear address)
      else .ok (depths.reach (address + 1) (depth - 1))
  | .clearThrough target _ =>
      match program.target? target with
      | some goal =>
          if resumed[goal]?.getD false ∧ depth ≠ 0 then
            .ok <| match depths.marker? goal with
            | some bound => depths.reach (address + 1) bound
            | none => depths
          else .error (.unmatchedCommit address)
      | none => .error (.unmatchedCommit address)
  | .quantify _ _ _ _ exit =>
      .ok <| match program.target? exit with
      | some goal => (depths.reach (address + 1) depth).reach goal depth
      | none => depths
  | .repeatEnd _ head =>
      .ok <| match program.target? head with
      | some goal => depths.reach goal depth
      | none => depths
  | .fail | .accept => .ok depths
  | _ => .ok (depths.reach (address + 1) depth)

def visit (program : Program) (resumed : Array Bool) (depths : SaveDepths)
    (address : Nat) : Except Rejection SaveDepths :=
  match program.instructions[address]?, depths.depth? address with
  | some instruction, some depth =>
      program.transfer resumed address depth instruction depths
  | _, _ => .ok depths

def sweep (program : Program) (resumed : Array Bool) (depths : SaveDepths) :
    Except Rejection SaveDepths :=
  (List.range program.instructions.size).foldlM (program.visit resumed) depths

def settle (program : Program) (resumed : Array Bool) (depths : SaveDepths) :
    Except Rejection SaveDepths :=
  match program.sweep resumed depths with
  | .error rejection => .error rejection
  | .ok next =>
      if next.improves depths then program.settle resumed next else .ok next
termination_by (depths.absent, depths.total)
decreasing_by
  rename_i improved
  simp only [SaveDepths.improves, Bool.or_eq_true, Bool.and_eq_true,
    decide_eq_true_eq, beq_iff_eq] at improved
  rw [Prod.lex_def]
  omega

/-- The settled depths, or the first discarding instruction met that could
find too little. -/
def saveDepths (program : Program) : Except Rejection SaveDepths :=
  program.settle program.resumePoints (.initial program.instructions.size)

end Program

end RegexMachine
