import RegexMachine.Program.SaveDepth

/-! # Validation

The defects of a program in the order in which they are looked for: its shape,
then each instruction by itself, then the depths of the save point stack. The
first defect found is the one reported. -/

namespace RegexMachine

namespace Program

def targetDefect? (program : Program) (address : Nat) (label : Label) :
    Option Rejection :=
  if (program.target? label).any (· < program.instructions.size) then none
  else some (.target address)

/-- A group operand names a group other than the whole match. -/
def groupDefect? (program : Program) (address : Nat) (group : UInt16) :
    Option Rejection :=
  if group ≠ 0 ∧ group.toNat < program.captureCount then none
  else some (.group group.toNat address)

def counterDefect? (program : Program) (address : Nat) (counter : UInt16) :
    Option Rejection :=
  if counter.toNat < program.counterCount then none
  else some (.counter counter.toNat address)

/-- A loop returns to the quantifier of its own counter. -/
def loopDefect? (program : Program) (address : Nat) (counter : UInt16)
    (head : Label) : Option Rejection :=
  match (program.target? head).bind (program.instructions[·]?) with
  | some (.quantify _ _ _ own _) =>
      if own = counter then none else some (.loopHead address)
  | _ => some (.loopHead address)

def instructionDefect? (program : Program) (address : Nat) :
    Instruction → Option Rejection
  | .matchString _ offset length _ _ =>
      if offset.toNat + length.toNat ≤ program.data.size then none
      else some (.pool address)
  | .matchSet _ index _ _ _ =>
      if index.toNat < program.runeSets.size then none else some (.pool address)
  | .matchBackref _ group _ _ => program.groupDefect? address group
  | .jump target | .branch target | .save target | .clearThrough target _ =>
      program.targetDefect? address target
  | .repeatStart counter => program.counterDefect? address counter
  | .quantify _ min max counter exit =>
      program.counterDefect? address counter
        <|> program.targetDefect? address exit
        <|> if min ≤ max then none else some (.bounds address)
  | .repeatEnd counter head =>
      program.counterDefect? address counter
        <|> program.targetDefect? address head
        <|> program.loopDefect? address counter head
  | .beginCapture group | .endCapture group =>
      program.groupDefect? address group
  | _ => none

/-- A program has a last instruction, and control does not pass it. -/
def shapeDefect? (program : Program) : Option Rejection :=
  match program.instructions.back? with
  | none => some .empty
  | some last => if last.closesProgram then none else some .openEnded

def localDefect? (program : Program) : Option Rejection :=
  program.instructions.toList.zipIdx.findSome? fun (instruction, address) =>
    program.instructionDefect? address instruction

def saveDefect? (program : Program) : Option Rejection :=
  match program.saveDepths with
  | .error rejection => some rejection
  | .ok _ => none

def defect? (program : Program) : Option Rejection :=
  program.shapeDefect? <|> program.localDefect? <|> program.saveDefect?

def validate (program : Program) : Except Fault Unit :=
  match program.defect? with
  | some rejection => .error (.rejected rejection)
  | none => .ok ()

end Program

end RegexMachine
