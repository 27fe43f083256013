import RegexMachine.Program.Validation

/-! # What validation grants

A program passes validation just if it is closed, every instruction finds its
operands, and the depths of the save point stack settle. -/

namespace RegexMachine

namespace Program

def Binds (program : Program) (label : Label) : Prop :=
  ∃ address, program.target? label = some address ∧
    address < program.instructions.size

end Program

def Instruction.Resolves (program : Program) : Instruction → Prop
  | .matchString _ offset length _ _ =>
      offset.toNat + length.toNat ≤ program.data.size
  | .matchSet _ index _ _ _ => index.toNat < program.runeSets.size
  | .matchBackref _ group _ _ | .beginCapture group | .endCapture group =>
      group ≠ 0 ∧ group.toNat < program.captureCount
  | .jump target | .branch target | .save target | .clearThrough target _ =>
      program.Binds target
  | .repeatStart counter => counter.toNat < program.counterCount
  | .quantify _ min max counter exit =>
      counter.toNat < program.counterCount ∧ program.Binds exit ∧ min ≤ max
  | .repeatEnd counter head =>
      counter.toNat < program.counterCount ∧
        ∃ address greed min max exit, program.target? head = some address ∧
          program.instructions[address]? = some (.quantify greed min max counter exit)
  | .matchAny .. | .matchClass .. | .advance .. | .clear | .assertAnchor _ | .fail
  | .accept => True

namespace Program

variable {program : Program}

theorem Binds.lt {label : Label} {address : Nat} (binds : program.Binds label)
    (target : program.target? label = some address) :
    address < program.instructions.size := by
  rcases binds with ⟨other, found, inside⟩
  rw [found] at target
  cases target
  exact inside

theorem targetDefect?_eq_none_iff {address : Nat} {label : Label} :
    program.targetDefect? address label = none ↔ program.Binds label := by
  unfold targetDefect? Binds
  cases program.target? label <;> simp

theorem groupDefect?_eq_none_iff {address : Nat} {group : UInt16} :
    program.groupDefect? address group = none ↔
      group ≠ 0 ∧ group.toNat < program.captureCount := by
  simp [groupDefect?]

theorem counterDefect?_eq_none_iff {address : Nat} {counter : UInt16} :
    program.counterDefect? address counter = none ↔
      counter.toNat < program.counterCount := by
  simp [counterDefect?]

theorem loopDefect?_eq_none_iff {address : Nat} {counter : UInt16} {head : Label} :
    program.loopDefect? address counter head = none ↔
      ∃ goal greed min max exit, program.target? head = some goal ∧
        program.instructions[goal]? = some (.quantify greed min max counter exit) := by
  unfold loopDefect?
  cases program.target? head with
  | none => simp
  | some goal =>
      simp only [Option.bind_some]
      split
      · next greed min max own exit found =>
          simp only [ite_eq_left_iff, reduceCtorEq, imp_false, Decidable.not_not]
          constructor
          · intro same
            subst same
            exact ⟨goal, greed, min, max, exit, rfl, found⟩
          · intro loops
            rcases loops with ⟨_, _, _, _, _, same, instruction⟩
            cases same
            rw [found] at instruction
            cases instruction
            rfl
      · next other =>
          simp only [reduceCtorEq, false_iff]
          intro loops
          rcases loops with ⟨_, greed, min, max, exit, same, instruction⟩
          cases same
          exact other greed min max counter exit instruction

theorem binds_of_loop {goal : Nat} {head : Label} {instruction : Instruction}
    (bound : program.target? head = some goal)
    (found : program.instructions[goal]? = some instruction) : program.Binds head := by
  rcases Array.getElem?_eq_some_iff.mp found with ⟨inside, -⟩
  exact ⟨goal, bound, inside⟩

theorem instructionDefect?_eq_none_iff {address : Nat} {instruction : Instruction} :
    program.instructionDefect? address instruction = none ↔
      instruction.Resolves program := by
  cases instruction <;>
    simp only [instructionDefect?, Instruction.Resolves, Option.orElse_eq_orElse,
      Option.orElse_eq_or, Option.or_eq_none_iff, targetDefect?_eq_none_iff,
      groupDefect?_eq_none_iff, counterDefect?_eq_none_iff, loopDefect?_eq_none_iff,
      ite_eq_left_iff, reduceCtorEq, imp_false, Decidable.not_not]
  case repeatEnd counter head =>
    constructor
    · exact fun ⟨inside, _, loops⟩ => ⟨inside, loops⟩
    · intro ⟨inside, goal, greed, min, max, exit, bound, found⟩
      exact ⟨inside, binds_of_loop bound found, goal, greed, min, max, exit, bound, found⟩

theorem shapeDefect?_eq_none_iff :
    program.shapeDefect? = none ↔
      ∃ last, program.instructions.back? = some last ∧ last.closesProgram = true := by
  unfold shapeDefect?
  cases program.instructions.back? <;> simp

theorem localDefect?_eq_none_iff :
    program.localDefect? = none ↔
      ∀ (address : Nat) (instruction : Instruction),
        program.instructions[address]? = some instruction →
          instruction.Resolves program := by
  simp only [localDefect?, List.findSome?_eq_none_iff, Prod.forall,
    instructionDefect?_eq_none_iff, List.mem_zipIdx_iff_getElem?, Array.getElem?_toList]
  exact ⟨fun all address instruction => all instruction address,
    fun all instruction address => all address instruction⟩

/-- What validation asks of a program. -/
structure Valid (program : Program) : Prop where
  closed : ∃ last, program.instructions.back? = some last ∧ last.closesProgram = true
  resolves : ∀ (address : Nat) (instruction : Instruction),
    program.instructions[address]? = some instruction → instruction.Resolves program
  settles : ∃ depths, program.saveDepths = .ok depths

theorem defect?_eq_none_iff : program.defect? = none ↔ program.Valid := by
  have settles : program.saveDefect? = none ↔
      ∃ depths, program.saveDepths = .ok depths := by
    unfold saveDefect?
    cases program.saveDepths <;> simp
  simp only [defect?, Option.orElse_eq_orElse, Option.orElse_eq_or, Option.or_eq_none_iff,
    shapeDefect?_eq_none_iff, localDefect?_eq_none_iff, settles]
  exact ⟨fun ⟨closed, resolves, settles⟩ => ⟨closed, resolves, settles⟩,
    fun ⟨closed, resolves, settles⟩ => ⟨closed, resolves, settles⟩⟩

theorem validate_eq_ok_iff : program.validate = .ok () ↔ program.Valid := by
  rw [← defect?_eq_none_iff, validate]
  cases program.defect? <;> simp

namespace Valid

theorem nonempty (valid : program.Valid) : 0 < program.instructions.size := by
  rcases valid.closed with ⟨last, found, -⟩
  rw [Array.back?_eq_getElem?] at found
  rcases Array.getElem?_eq_some_iff.mp found with ⟨inside, -⟩
  omega

theorem next_lt (valid : program.Valid) {address : Nat} {instruction : Instruction}
    (found : program.instructions[address]? = some instruction)
    (opens : instruction.closesProgram = false) :
    address + 1 < program.instructions.size := by
  rcases Array.getElem?_eq_some_iff.mp found with ⟨inside, -⟩
  rcases valid.closed with ⟨last, final, closes⟩
  rw [Array.back?_eq_getElem?] at final
  by_cases later : address + 1 < program.instructions.size
  · exact later
  · have here : program.instructions.size - 1 = address := by omega
    rw [here, found] at final
    cases final
    rw [opens] at closes
    cases closes

end Valid

end Program

end RegexMachine
