import RegexMachine.Proofs.Program.Validity

/-! # Nested loops

The counter of a loop is set where the loop starts, and it is read at the head of the loop
and at the end of its body. Validation asks no more than that the end of a body leads to a
head with the same counter. The loops of a program are nested if besides control enters
each of them at its start only, and if no loop in the body of another one has the counter
of that one. -/

namespace RegexMachine

namespace Program

/-- The addresses before this one at which loops start that do not end before it, the
innermost first. -/
def openLoops (program : Program) : Nat → List Nat
  | 0 => []
  | address + 1 =>
      match program.instructions[address]? with
      | some (.repeatStart _) => address :: program.openLoops address
      | some (.repeatEnd _ _) => (program.openLoops address).tail
      | _ => program.openLoops address

structure Repeats (program : Program) (opening : Nat) (counter : UInt16) (max : UInt32) :
    Prop where
  starts : program.instructions[opening]? = some (.repeatStart counter)
  decides : ∃ greed min exit,
    program.instructions[opening + 1]? = some (.quantify greed min max counter exit)

def LeadsInto (program : Program) (opens : List Nat) (label : Label) : Prop :=
  ∀ goal, program.target? label = some goal → program.openLoops goal = opens

end Program

namespace Instruction

def turnsLoop : Instruction → Bool
  | .repeatStart _ | .repeatEnd _ _ => true
  | _ => false

def KeepsLoops (program : Program) (address : Nat) : Instruction → Prop
  | .repeatStart counter =>
      (∃ max, program.Repeats address counter max) ∧
        ∀ opening ∈ program.openLoops address,
          program.instructions[opening]? ≠ some (.repeatStart counter)
  | .quantify _ _ max counter exit =>
      ∃ opening, address = opening + 1 ∧ program.Repeats opening counter max ∧
        program.LeadsInto (program.openLoops opening) exit
  | .repeatEnd counter head =>
      ∃ opening max, program.openLoops address = opening :: program.openLoops opening ∧
        program.Repeats opening counter max ∧ program.target? head = some (opening + 1)
  | .jump target | .branch target | .save target | .clearThrough target _ =>
      program.LeadsInto (program.openLoops address) target
  | _ => True

end Instruction

namespace Program

variable {program : Program} {address opening : Nat} {instruction : Instruction}
  {counter other : UInt16} {max : UInt32} {head : Label}

def LoopsNested (program : Program) : Prop :=
  ∀ (address : Nat) instruction, program.instructions[address]? = some instruction →
    instruction.KeepsLoops program address

theorem openLoops_start (found : program.instructions[address]? = some (.repeatStart counter)) :
    program.openLoops (address + 1) = address :: program.openLoops address := by
  rw [openLoops, found]

theorem openLoops_end
    (found : program.instructions[address]? = some (.repeatEnd counter head)) :
    program.openLoops (address + 1) = (program.openLoops address).tail := by
  rw [openLoops, found]

theorem openLoops_flat (found : program.instructions[address]? = some instruction)
    (flat : instruction.turnsLoop = false) :
    program.openLoops (address + 1) = program.openLoops address := by
  rw [openLoops, found]
  cases instruction with
  | repeatStart => cases flat
  | repeatEnd => cases flat
  | _ => rfl

theorem lt_of_mem_openLoops (member : opening ∈ program.openLoops address) :
    opening < address := by
  induction address with
  | zero => cases member
  | succ address induction =>
      have earlier (member : opening ∈ program.openLoops address) : opening < address + 1 :=
        Nat.lt_succ_of_lt (induction member)
      rw [openLoops] at member
      split at member
      · rcases List.mem_cons.mp member with rfl | member
        · exact Nat.lt_succ_self _
        · exact earlier member
      · exact earlier (List.mem_of_mem_tail member)
      · exact earlier member

namespace Repeats

theorem openLoops_head (repeats : program.Repeats opening counter max) :
    program.openLoops (opening + 1) = opening :: program.openLoops opening :=
  openLoops_start repeats.starts

theorem unique {most : UInt32} (repeats : program.Repeats opening counter max)
    (again : program.Repeats opening other most) : other = counter ∧ most = max := by
  obtain ⟨_, _, _, decides⟩ := repeats.decides
  obtain ⟨_, _, _, decided⟩ := again.decides
  rw [decides] at decided
  cases decided
  exact ⟨rfl, rfl⟩

theorem apart {outer : Nat} {most : UInt32} (nested : program.LoopsNested)
    (repeats : program.Repeats opening counter max)
    (around : outer ∈ program.openLoops opening)
    (others : program.Repeats outer other most) : other ≠ counter := by
  rintro rfl
  exact (nested _ _ repeats.starts).2 outer around others.starts

end Repeats

end Program

end RegexMachine
