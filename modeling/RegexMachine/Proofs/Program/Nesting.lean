import RegexMachine.Proofs.Program.Depths

/-! # Nested commits

In a nested program every commit closes the innermost marked save point that is
open at its address, and control comes to an address with the same ones open
whatever path it takes. The depths found for such a program are never less than
the number of those open, so its analysis turns nothing away. -/

namespace RegexMachine

namespace Program

/-- The addresses before this one at which marked save points are pushed that no
commit before it closes, the innermost first. -/
def openSaves (program : Program) : Nat → List Nat
  | 0 => []
  | address + 1 =>
      match program.instructions[address]? with
      | some (.save _) => address :: program.openSaves address
      | some (.clearThrough _ _) => (program.openSaves address).tail
      | _ => program.openSaves address

def Levels (program : Program) (address : Nat) (label : Label) : Prop :=
  ∃ goal, program.target? label = some goal ∧ goal < program.instructions.size ∧
    program.openSaves goal = program.openSaves address

end Program

namespace Instruction

/-- At the address, the instruction keeps to the nesting of the program. -/
def Nests (program : Program) (address : Nat) : Instruction → Prop
  | .jump target | .branch target | .quantify _ _ _ _ target =>
      program.Levels address target
  | .repeatEnd counter head =>
      program.Levels address head ∧ ∃ goal greed min max exit,
        program.target? head = some goal ∧
          program.instructions[goal]? = some (.quantify greed min max counter exit)
  | .save target =>
      program.Levels address target ∧ ∃ closing keep,
        program.instructions[closing]? = some (.clearThrough target keep) ∧
          program.target? target = some (closing + 2) ∧
            program.openSaves closing = address :: program.openSaves address
  | .clearThrough target _ =>
      ∃ opening, program.instructions[opening]? = some (.save target) ∧
        program.openSaves address = opening :: program.openSaves opening
  | .clear => False
  | _ => True

def Grounded (program : Program) : Instruction → Prop
  | .matchString _ offset length _ _ =>
      offset.toNat + length.toNat ≤ program.data.size
  | .matchSet _ index _ _ _ => index.toNat < program.runeSets.size
  | .matchBackref _ group _ _ | .beginCapture group | .endCapture group =>
      group ≠ 0 ∧ group.toNat < program.captureCount
  | .repeatStart counter | .repeatEnd counter _ => counter.toNat < program.counterCount
  | .quantify _ min max counter _ => counter.toNat < program.counterCount ∧ min ≤ max
  | _ => True

def isBracket : Instruction → Bool
  | .save _ | .clearThrough _ _ => true
  | _ => false

end Instruction

namespace Program

variable {program : Program} {address opening goal : Nat} {instruction : Instruction}
  {label : Label} {keep : Bool}

def Nested (program : Program) : Prop :=
  ∀ (address : Nat) instruction, program.instructions[address]? = some instruction →
    instruction.Nests program address

/-! ## What is open -/

theorem openSaves_save (found : program.instructions[address]? = some (.save label)) :
    program.openSaves (address + 1) = address :: program.openSaves address := by
  rw [openSaves, found]

theorem openSaves_clearThrough
    (found : program.instructions[address]? = some (.clearThrough label keep)) :
    program.openSaves (address + 1) = (program.openSaves address).tail := by
  rw [openSaves, found]

theorem openSaves_plain (found : program.instructions[address]? = some instruction)
    (plain : instruction.isBracket = false) :
    program.openSaves (address + 1) = program.openSaves address := by
  rw [openSaves, found]
  cases instruction with
  | save => cases plain
  | clearThrough => cases plain
  | _ => rfl

theorem lt_of_mem_openSaves (member : opening ∈ program.openSaves address) :
    opening < address := by
  induction address with
  | zero => cases member
  | succ address induction =>
      have earlier (member : opening ∈ program.openSaves address) : opening < address + 1 :=
        Nat.lt_succ_of_lt (induction member)
      rw [openSaves] at member
      split at member
      · rcases List.mem_cons.mp member with rfl | member
        · exact Nat.lt_succ_self _
        · exact earlier member
      · exact earlier (List.mem_of_mem_tail member)
      · exact earlier member

theorem not_mem_openSaves {closed : Nat} (absent : opening ∉ program.openSaves closed)
    (before : opening < closed) (behind : closed ≤ address) :
    opening ∉ program.openSaves address := by
  induction behind with
  | refl => exact absent
  | @step address behind induction =>
      have behind : closed ≤ address := behind
      rw [openSaves]
      split
      · rw [List.mem_cons, not_or]
        exact ⟨by omega, induction⟩
      · exact fun member => induction (List.mem_of_mem_tail member)
      · exact induction

namespace Nested

theorem levels_save (nested : program.Nested)
    (found : program.instructions[address]? = some (.save label))
    (bound : program.target? label = some goal) :
    goal < program.instructions.size ∧
      program.openSaves goal = program.openSaves address := by
  obtain ⟨⟨other, target, inside, same⟩, -⟩ := nested _ _ found
  rw [bound] at target
  cases target
  exact ⟨inside, same⟩

/-- No two marked save points resume at the same address. -/
theorem save_unique (nested : program.Nested) {other : Nat} {target : Label}
    (found : program.instructions[opening]? = some (.save label))
    (bound : program.target? label = some goal)
    (others : program.instructions[other]? = some (.save target))
    (same : program.target? target = some goal) : other = opening := by
  obtain ⟨-, closing, _, -, after, opens⟩ := nested _ _ found
  obtain ⟨-, ending, _, -, behind, encloses⟩ := nested _ _ others
  rw [bound] at after
  rw [same] at behind
  cases after
  cases behind
  rw [opens] at encloses
  cases encloses
  rfl

end Nested

end Program

/-! ## The depths of a nested program -/

namespace SaveDepths

def AtLeast (table : Array (Option Nat)) (least : Nat → Nat) : Prop :=
  ∀ address bound, table[address]?.join = some bound → least address ≤ bound

theorem AtLeast.lowerEntry {table : Array (Option Nat)} {least : Nat → Nat}
    {address bound : Nat} (known : AtLeast table least) (enough : least address ≤ bound) :
    AtLeast (lowerEntry table address bound) least := by
  intro other value found
  rw [SaveDepths.lowerEntry, Array.getElem?_modify] at found
  split at found
  · next same =>
      subst same
      cases before : table[address]? with
      | none =>
          rw [before] at found
          cases found
      | some entry =>
          rw [before] at found
          cases entry with
          | none =>
              cases found
              exact enough
          | some older =>
              cases found
              have := known address older (by rw [before]; rfl)
              exact Nat.le_min.mpr ⟨enough, this⟩
  · exact known other value found

structure Exceeds (depths : SaveDepths) (least : Nat → Nat) : Prop where
  depth : AtLeast depths.depth least
  marker : AtLeast depths.marker least

namespace Exceeds

variable {depths : SaveDepths} {least : Nat → Nat} {address bound : Nat}

theorem reach (exceeds : depths.Exceeds least) (enough : least address ≤ bound) :
    (depths.reach address bound).Exceeds least :=
  { exceeds with depth := exceeds.depth.lowerEntry enough }

theorem mark (exceeds : depths.Exceeds least) (enough : least address ≤ bound) :
    (depths.mark address bound).Exceeds least :=
  { exceeds with marker := exceeds.marker.lowerEntry enough }

end Exceeds

end SaveDepths

open SaveDepths

namespace Program

variable {program : Program} {address opening goal depth : Nat} {instruction : Instruction}
  {label : Label} {depths : SaveDepths}

private def resumedBy (program : Program) (resumed : Array Bool) : Instruction → Array Bool
  | .save target =>
      match program.target? target with
      | some address => resumed.setIfInBounds address true
      | none => resumed
  | _ => resumed

private theorem size_resumedBy (resumed : Array Bool) (instruction : Instruction) :
    (program.resumedBy resumed instruction).size = resumed.size := by
  cases instruction with
  | save target =>
      rw [resumedBy]
      split
      · exact Array.size_setIfInBounds
      · rfl
  | _ => rfl

private theorem resumedBy_stays {resumed : Array Bool} (instruction : Instruction)
    (marked : resumed[goal]? = some true) :
    (program.resumedBy resumed instruction)[goal]? = some true := by
  cases instruction with
  | save target =>
      rw [resumedBy]
      split
      · rw [Array.getElem?_setIfInBounds]
        split
        · next same =>
            subst same
            obtain ⟨inside, -⟩ := Array.getElem?_eq_some_iff.mp marked
            rw [if_pos inside]
        · exact marked
      · exact marked
  | _ => exact marked

private theorem foldl_resumedBy {instructions : List Instruction} {resumed : Array Bool}
    (inside : goal < resumed.size)
    (marked : resumed[goal]? = some true ∨
      ∃ label, .save label ∈ instructions ∧ program.target? label = some goal) :
    (instructions.foldl program.resumedBy resumed)[goal]? = some true := by
  induction instructions generalizing resumed with
  | nil =>
      rcases marked with marked | ⟨_, member, -⟩
      · exact marked
      · cases member
  | cons instruction rest induction =>
      rw [List.foldl_cons]
      apply induction
      · rw [size_resumedBy]
        exact inside
      · rcases marked with marked | ⟨label, member, bound⟩
        · exact .inl (resumedBy_stays instruction marked)
        · rcases List.mem_cons.mp member with rfl | member
          · left
            rw [resumedBy, bound]
            exact Array.getElem?_setIfInBounds_self_of_lt inside
          · exact .inr ⟨label, member, bound⟩

theorem resumePoints_of_save (found : program.instructions[opening]? = some (.save label))
    (bound : program.target? label = some goal) (inside : goal < program.instructions.size) :
    program.resumePoints[goal]? = some true := by
  have shape : program.resumePoints = program.instructions.toList.foldl program.resumedBy
      (Array.replicate program.instructions.size false) := by
    rw [resumePoints, ← Array.foldl_toList]
    rfl
  rw [shape]
  apply foldl_resumedBy
  · rw [Array.size_replicate]
    exact inside
  · rw [← Array.getElem?_toList] at found
    exact .inr ⟨label, List.mem_of_getElem? found, bound⟩

def openCount (program : Program) (address : Nat) : Nat :=
  (program.openSaves address).length

namespace Nested

theorem transfer_ok (nested : program.Nested)
    (found : program.instructions[address]? = some instruction)
    (exceeds : depths.Exceeds program.openCount) (enough : program.openCount address ≤ depth) :
    ∃ next, program.transfer program.resumePoints address depth instruction depths = .ok next ∧
      next.Exceeds program.openCount := by
  have nests := nested _ _ found
  have pass (plain : instruction.isBracket = false) :
      program.openCount (address + 1) ≤ depth := by
    rw [openCount, openSaves_plain found plain]
    exact enough
  have level {other} (same : program.openSaves other = program.openSaves address) :
      program.openCount other ≤ depth := by
    rw [openCount, same]
    exact enough
  cases instruction with
  | jump target =>
      obtain ⟨goal, bound, -, same⟩ := nests
      refine ⟨_, rfl, ?_⟩
      rw [bound]
      exact exceeds.reach (level same)
  | branch target =>
      obtain ⟨goal, bound, -, same⟩ := nests
      refine ⟨_, rfl, ?_⟩
      rw [bound]
      exact (exceeds.reach (Nat.le_succ_of_le (level same))).reach (pass rfl)
  | save target =>
      obtain ⟨⟨goal, bound, -, same⟩, -⟩ := nests
      have opened : program.openCount (address + 1) ≤ depth + 1 := by
        rw [openCount, openSaves_save found]
        exact Nat.succ_le_succ enough
      refine ⟨_, rfl, ?_⟩
      rw [bound]
      exact ((exceeds.reach opened).reach (level same)).mark (level same)
  | clear => exact nests.elim
  | clearThrough target keep =>
      obtain ⟨opening, opens, enclosing⟩ := nests
      obtain ⟨⟨goal, bound, inside, same⟩, -⟩ := nested _ _ opens
      have marked := resumePoints_of_save opens bound inside
      have nonempty : depth ≠ 0 := by
        rw [openCount, enclosing, List.length_cons] at enough
        omega
      simp only [transfer, bound, marked, Option.getD_some, ne_eq, nonempty, not_false_eq_true,
        and_self, if_true]
      refine ⟨_, rfl, ?_⟩
      cases known : depths.marker? goal with
      | none => exact exceeds
      | some least =>
          apply exceeds.reach
          have least := exceeds.marker goal least known
          rw [openCount, same] at least
          rw [openCount, openSaves_clearThrough found, enclosing]
          exact least
  | quantify greed min max counter exit =>
      obtain ⟨goal, bound, -, same⟩ := nests
      refine ⟨_, rfl, ?_⟩
      rw [bound]
      exact (exceeds.reach (pass rfl)).reach (level same)
  | repeatEnd counter head =>
      obtain ⟨⟨goal, bound, -, same⟩, -⟩ := nests
      refine ⟨_, rfl, ?_⟩
      rw [bound]
      exact exceeds.reach (level same)
  | fail => exact ⟨_, rfl, exceeds⟩
  | accept => exact ⟨_, rfl, exceeds⟩
  | _ => exact ⟨_, rfl, exceeds.reach (pass rfl)⟩

theorem visit_ok (nested : program.Nested) (exceeds : depths.Exceeds program.openCount)
    (address : Nat) :
    ∃ next, program.visit program.resumePoints depths address = .ok next ∧
      next.Exceeds program.openCount := by
  rw [visit.eq_def]
  split
  · next instruction depth found known =>
      exact nested.transfer_ok found exceeds (exceeds.depth address depth known)
  · exact ⟨depths, rfl, exceeds⟩

theorem sweep_ok (nested : program.Nested) (exceeds : depths.Exceeds program.openCount) :
    ∃ next, program.sweep program.resumePoints depths = .ok next ∧
      next.Exceeds program.openCount := by
  rw [sweep]
  generalize List.range program.instructions.size = addresses
  induction addresses generalizing depths with
  | nil => exact ⟨depths, rfl, exceeds⟩
  | cons address rest induction =>
      obtain ⟨middle, visited, exceeds⟩ := nested.visit_ok exceeds address
      rw [List.foldlM_cons, visited]
      exact induction exceeds

theorem settle_ok (nested : program.Nested) (exceeds : depths.Exceeds program.openCount) :
    ∃ settled, program.settle program.resumePoints depths = .ok settled := by
  fun_induction settle program program.resumePoints depths with
  | case1 depths rejection stopped =>
      obtain ⟨next, swept, -⟩ := nested.sweep_ok exceeds
      rw [stopped] at swept
      cases swept
  | case2 depths later stopped _ induction =>
      obtain ⟨next, swept, more⟩ := nested.sweep_ok exceeds
      rw [stopped] at swept
      cases swept
      exact induction more
  | case3 depths later _ _ => exact ⟨later, rfl⟩

theorem settles (nested : program.Nested) : ∃ depths, program.saveDepths = .ok depths := by
  apply nested.settle_ok
  constructor
  · intro address bound known
    simp only [SaveDepths.initial, Array.getElem?_setIfInBounds, Array.size_replicate,
      Array.getElem?_replicate] at known
    split at known
    · next first =>
        subst first
        exact Nat.zero_le bound
    · split at known <;> cases known
  · intro address bound known
    simp only [SaveDepths.initial, Array.getElem?_replicate] at known
    split at known <;> cases known

theorem resolves (nested : program.Nested)
    (found : program.instructions[address]? = some instruction)
    (grounded : instruction.Grounded program) : instruction.Resolves program := by
  have binds {label} (levels : program.Levels address label) : program.Binds label := by
    obtain ⟨goal, bound, inside, -⟩ := levels
    exact ⟨goal, bound, inside⟩
  have nests := nested _ _ found
  cases instruction with
  | jump target => exact binds nests
  | branch target => exact binds nests
  | save target => exact binds nests.1
  | clearThrough target keep =>
      obtain ⟨opening, opens, -⟩ := nests
      obtain ⟨⟨goal, bound, inside, -⟩, -⟩ := nested _ _ opens
      exact ⟨goal, bound, inside⟩
  | quantify greed min max counter exit => exact ⟨grounded.1, binds nests, grounded.2⟩
  | repeatEnd counter head =>
      obtain ⟨-, goal, greed, min, max, exit, bound, loops⟩ := nests
      exact ⟨grounded, goal, greed, min, max, exit, bound, loops⟩
  | clear => trivial
  | _ => exact grounded

end Nested

end Program

end RegexMachine
