import RegexMachine.Proofs.Pattern.Levels
import RegexMachine.Proofs.Program.Nesting

/-! # Fragments are balanced

What lies between the two ends of a fragment opens and closes its marked save
points in pairs, and its labels lead to where the same ones are open. This holds
of a lookaround because it holds of the body between its two brackets. -/

namespace RegexMachine

namespace Program

/-- The instructions between the addresses keep to the nesting, and at the end the
same save points are open as at the beginning. -/
structure Balanced (program : Program) (first last : Nat) : Prop where
  opens : program.openSaves last = program.openSaves first
  nests : ∀ address, first ≤ address → address < last → ∀ instruction,
    program.instructions[address]? = some instruction → instruction.Nests program address

def NestsAt (program : Program) (address : Nat) (instruction : Instruction) : Prop :=
  instruction.Nests program address

variable {program : Program} {first middle last : Nat}

theorem Steady.balanced (steady : program.Steady program.openSaves program.NestsAt first last) :
    program.Balanced first last :=
  ⟨steady.level_eq, steady.keeps⟩

theorem steers_nestsAt (program : Program) :
    program.Steers program.openSaves program.NestsAt where
  flat address instruction found plain := by
    refine openSaves_plain found ?_
    cases instruction <;> first | rfl | cases plain
  keeps address instruction found plain leads loops := by
    cases instruction with
    | jump target => exact leads target rfl
    | branch target => exact leads target rfl
    | quantify greed min max counter exit => exact leads exit rfl
    | repeatEnd counter head => exact ⟨leads head rfl, loops counter head rfl⟩
    | save => cases plain
    | clear => cases plain
    | clearThrough => cases plain
    | _ => trivial

/-- A body between an instruction that pushes a marked save point and the commit
to it. The save point resumes behind the instruction after the commit. -/
theorem steady_enclosed {target : Label} {keep : Bool}
    (saved : program.instructions[first]? = some (.save target))
    (body : program.Steady program.openSaves program.NestsAt (first + 1) middle)
    (committed : program.instructions[middle]? = some (.clearThrough target keep))
    (after : program.Steady program.openSaves program.NestsAt (middle + 1) (middle + 2))
    (bound : program.target? target = some (middle + 2))
    (inside : middle + 2 < program.instructions.size) :
    program.Steady program.openSaves program.NestsAt first (middle + 2) := by
  have opened : program.openSaves middle = first :: program.openSaves first :=
    body.level_eq.trans (openSaves_save saved)
  have closed : program.openSaves (middle + 1) = program.openSaves first := by
    rw [openSaves_clearThrough committed, opened, List.tail_cons]
  have levels : program.openSaves (middle + 2) = program.openSaves first :=
    after.level_eq.trans closed
  refine ⟨levels, fun address behind before other read => ?_⟩
  rcases Nat.lt_trichotomy address middle with earlier | rfl | later
  · rcases Nat.eq_or_lt_of_le behind with rfl | behind
    · rw [saved] at read
      cases read
      exact ⟨⟨_, bound, inside, levels⟩, middle, keep, committed, bound, opened⟩
    · exact body.keeps address behind earlier other read
  · rw [committed] at read
    cases read
    exact ⟨first, saved, opened⟩
  · exact after.keeps address later before other read

end Program

namespace Fragment

variable {program : Program}

variable [CharacterData]

/-- Wherever the fragment is placed, its ends are in order, and it is balanced if
there is an instruction after it. -/
def Balances (program : Program) (fragment : Fragment) : Prop :=
  ∀ direction first last floor, fragment.Placed program direction first last floor →
    first ≤ last ∧ (last < program.instructions.size → program.Balanced first last)

theorem nests_capture {group : UInt16} {body : Fragment}
    (within : ∀ base, body.SteadyAt program program.openSaves program.NestsAt base)
    (base : List Nat) :
    (capture group body).SteadyAt program program.openSaves program.NestsAt base := by
  intro direction first last floor placed
  have begins {address} (found : program.instructions[address]? =
      some (.beginCapture group)) :
      program.Steady program.openSaves program.NestsAt address (address + 1) := by
    exact .single found (Program.openSaves_plain found rfl) trivial
  have ends {address} (found : program.instructions[address]? =
      some (.endCapture group)) :
      program.Steady program.openSaves program.NestsAt address (address + 1) := by
    exact .single found (Program.openSaves_plain found rfl) trivial
  cases direction with
  | forward =>
      obtain ⟨middle, rfl, opened, placed, closed⟩ := placed
      obtain ⟨ordered, steady⟩ := within _ _ _ _ _ placed
      exact ⟨by omega, fun inside _ =>
        (begins opened).trans ((steady (by omega) rfl).trans (ends closed))⟩
  | reverse =>
      obtain ⟨middle, rfl, closed, placed, opened⟩ := placed
      obtain ⟨ordered, steady⟩ := within _ _ _ _ _ placed
      exact ⟨by omega, fun inside _ =>
        (ends closed).trans ((steady (by omega) rfl).trans (begins opened))⟩

theorem nests_lookaround {sight : Direction} {negated : Bool} {body : Fragment}
    (within : ∀ base, body.SteadyAt program program.openSaves program.NestsAt base)
    (base : List Nat) :
    (lookaround sight negated body).SteadyAt program program.openSaves program.NestsAt base := by
  intro direction first last floor placed
  have steers := program.steers_nestsAt
  cases negated with
  | true =>
      obtain ⟨done, middle, rfl, saved, bound, placed, committed, failed⟩ := placed
      obtain ⟨ordered, steady⟩ := within _ _ _ _ _ placed
      refine ⟨by omega, fun inside _ => ?_⟩
      exact Program.steady_enclosed saved (steady (by omega) rfl) committed
        (steers.leaf failed rfl rfl) bound inside
  | false =>
      obtain ⟨failure, done, middle, rfl, saved, bound, placed, committed, jumped, ends,
        failed⟩ := placed
      obtain ⟨ordered, steady⟩ := within _ _ _ _ _ placed
      refine ⟨by omega, fun inside _ => ?_⟩
      have jumps : program.openSaves (middle + 2) = program.openSaves (middle + 1) :=
        Program.openSaves_plain jumped rfl
      have fails := steers.leaf failed rfl rfl
      have leaves := steers.leading ⟨middle + 3, ends, inside, fails.level_eq.trans jumps⟩
        (.inl jumped)
      exact (Program.steady_enclosed saved (steady (by omega) rfl) committed leaves bound
        (by omega)).trans fails

theorem balances (program : Program) (fragment : Fragment) : Balances program fragment := by
  have inherits : Inherits program program.openSaves program.NestsAt fun _ _ => True :=
    { sequence := fun _ _ _ => trivial
      alternation := fun _ _ _ => trivial
      repetition := fun _ => trivial
      capture := fun within base _ => nests_capture (fun base => within base trivial) base
      lookaround := fun within base _ =>
        nests_lookaround (fun base => within base trivial) base }
  intro direction first last floor placed
  obtain ⟨ordered, steady⟩ := steadyAt program.steers_nestsAt inherits fragment
    (program.openSaves first) trivial direction first last floor placed
  exact ⟨ordered, fun inside => (steady inside rfl).balanced⟩

end Fragment

end RegexMachine
