import RegexMachine.Proofs.Program.Validity

/-! # Rejections that blame an operand

A program is turned away for a literal, a set, a group or the bounds of a loop only if one
of its instructions carries such an operand that is not in order. The shape of a program and
the depths of its save points lead to other rejections. -/

namespace RegexMachine

def Rejection.blamesOperand : Rejection → Bool
  | pool _ | group _ _ | bounds _ => true
  | _ => false

def Fault.blamesOperand : Fault → Bool
  | captureGroup | quantifier => true
  | rejected reason => reason.blamesOperand
  | _ => false

/-- Every operand of the instruction, labels and counters apart, names something in the
program, and its bounds are in order. -/
def Instruction.Refers (program : Program) : Instruction → Prop
  | .matchString _ offset length _ _ =>
      offset.toNat + length.toNat ≤ program.data.size
  | .matchSet _ index _ _ _ => index.toNat < program.runeSets.size
  | .matchBackref _ group _ _ | .beginCapture group | .endCapture group =>
      group ≠ 0 ∧ group.toNat < program.captureCount
  | .quantify _ min max _ _ => min ≤ max
  | _ => True

namespace Program

variable {program : Program} {resumed : Array Bool} {depths : SaveDepths}
  {reason : Rejection} {address depth : Nat} {instruction : Instruction}

/-! ## Depths -/

theorem transfer_blames_none
    (stops : program.transfer resumed address depth instruction depths = .error reason) :
    reason.blamesOperand = false := by
  cases instruction with
  | clear =>
      simp only [transfer] at stops
      split at stops <;> cases stops
      rfl
  | clearThrough target keep =>
      simp only [transfer] at stops
      split at stops
      · split at stops <;> cases stops
        rfl
      · cases stops
        rfl
  | _ => cases stops

theorem foldlM_visit_blames_none {addresses : List Nat}
    (stops : addresses.foldlM (program.visit resumed) depths = .error reason) :
    reason.blamesOperand = false := by
  induction addresses generalizing depths with
  | nil => cases stops
  | cons address rest induction =>
      rw [List.foldlM_cons] at stops
      cases visited : program.visit resumed depths address with
      | error other =>
          rw [visited] at stops
          cases stops
          rw [visit] at visited
          split at visited
          · exact transfer_blames_none visited
          · cases visited
      | ok next =>
          rw [visited] at stops
          exact induction stops

theorem settle_blames_none (stops : program.settle resumed depths = .error reason) :
    reason.blamesOperand = false := by
  fun_induction settle program resumed depths with
  | case1 depths other stopped =>
      cases stops
      exact foldlM_visit_blames_none stopped
  | case2 depths next swept improved induction => exact induction stops
  | case3 depths next swept same => cases stops

theorem saveDefect?_blames_none (defect : program.saveDefect? = some reason) :
    reason.blamesOperand = false := by
  rw [saveDefect?] at defect
  split at defect
  · next other stops =>
      cases defect
      exact settle_blames_none stops
  · cases defect

/-! ## Instructions -/

theorem targetDefect?_blames_none {label : Label}
    (defect : program.targetDefect? address label = some reason) :
    reason.blamesOperand = false := by
  rw [targetDefect?] at defect
  split at defect <;> cases defect
  rfl

theorem counterDefect?_blames_none {counter : UInt16}
    (defect : program.counterDefect? address counter = some reason) :
    reason.blamesOperand = false := by
  rw [counterDefect?] at defect
  split at defect <;> cases defect
  rfl

theorem loopDefect?_blames_none {counter : UInt16} {head : Label}
    (defect : program.loopDefect? address counter head = some reason) :
    reason.blamesOperand = false := by
  rw [loopDefect?] at defect
  split at defect
  · split at defect <;> cases defect
    rfl
  · cases defect
    rfl

theorem instructionDefect?_blames_none (refers : instruction.Refers program)
    (defect : program.instructionDefect? address instruction = some reason) :
    reason.blamesOperand = false := by
  have grouped {group : UInt16} (named : group ≠ 0 ∧ group.toNat < program.captureCount)
      (defect : program.groupDefect? address group = some reason) :
      reason.blamesOperand = false := by
    rw [groupDefect?_eq_none_iff.mpr named] at defect
    cases defect
  cases instruction with
  | matchString direction offset length caseless boundary =>
      rw [Instruction.Refers] at refers
      rw [instructionDefect?, if_pos refers] at defect
      cases defect
  | matchSet direction index negated caseless boundary =>
      rw [Instruction.Refers] at refers
      rw [instructionDefect?, if_pos refers] at defect
      cases defect
  | matchBackref => exact grouped refers defect
  | beginCapture => exact grouped refers defect
  | endCapture => exact grouped refers defect
  | jump => exact targetDefect?_blames_none defect
  | branch => exact targetDefect?_blames_none defect
  | save => exact targetDefect?_blames_none defect
  | clearThrough => exact targetDefect?_blames_none defect
  | repeatStart => exact counterDefect?_blames_none defect
  | quantify greed min max counter exit =>
      rw [Instruction.Refers] at refers
      rw [instructionDefect?, if_pos refers] at defect
      simp only [Option.orElse_eq_orElse, Option.orElse_eq_or, Option.or_none,
        Option.or_eq_some_iff] at defect
      rcases defect with counted | ⟨-, bound⟩
      · exact counterDefect?_blames_none counted
      · exact targetDefect?_blames_none bound
  | repeatEnd counter head =>
      simp only [instructionDefect?, Option.orElse_eq_orElse, Option.orElse_eq_or,
        Option.or_eq_some_iff] at defect
      rcases defect with counted | ⟨-, bound | ⟨-, loops⟩⟩
      · exact counterDefect?_blames_none counted
      · exact targetDefect?_blames_none bound
      · exact loopDefect?_blames_none loops
  | _ => cases defect

/-! ## Programs -/

theorem shapeDefect?_blames_none (defect : program.shapeDefect? = some reason) :
    reason.blamesOperand = false := by
  rw [shapeDefect?] at defect
  split at defect
  · cases defect
    rfl
  · split at defect <;> cases defect
    rfl

theorem defect?_blames_none
    (refers : ∀ (address : Nat) instruction,
      program.instructions[address]? = some instruction → instruction.Refers program)
    (defect : program.defect? = some reason) : reason.blamesOperand = false := by
  simp only [defect?, Option.orElse_eq_orElse, Option.orElse_eq_or,
    Option.or_eq_some_iff] at defect
  rcases defect with shape | ⟨-, own | ⟨-, depths⟩⟩
  · exact shapeDefect?_blames_none shape
  · rw [localDefect?] at own
    obtain ⟨⟨instruction, address⟩, member, own⟩ := List.exists_of_findSome?_eq_some own
    rw [List.mem_zipIdx_iff_getElem?, Array.getElem?_toList] at member
    exact instructionDefect?_blames_none (refers address instruction member) own
  · exact saveDefect?_blames_none depths

end Program

end RegexMachine
