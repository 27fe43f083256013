import RegexMachine.Proofs.Pattern.Levels
import RegexMachine.Proofs.Pattern.Pairing
import RegexMachine.Proofs.Pattern.Soundness

/-! # Where captures are open

The instructions that write the ends of a group open and close a capture of it by turns,
in the order of their addresses. In a program compiled from captures that are apart, no
label leads into an open capture or out of it, and what closes one is the last instruction
of a capture in place whose first one has opened it. -/

namespace RegexMachine

namespace Instruction

def delimits (group : UInt16) : Instruction → Bool
  | .beginCapture other | .endCapture other => other == group
  | _ => false

def entering (group : UInt16) : Direction → Instruction
  | .forward => .beginCapture group
  | .reverse => .endCapture group

def leaving (group : UInt16) : Direction → Instruction
  | .forward => .endCapture group
  | .reverse => .beginCapture group

theorem delimits_entering (group other : UInt16) (direction : Direction) :
    (entering other direction).delimits group = (other == group) := by
  cases direction <;> rfl

theorem delimits_leaving (group other : UInt16) (direction : Direction) :
    (leaving other direction).delimits group = (other == group) := by
  cases direction <;> rfl

theorem label?_entering (group : UInt16) (direction : Direction) :
    (entering group direction).label? = none := by
  cases direction <;> rfl

theorem label?_leaving (group : UInt16) (direction : Direction) :
    (leaving group direction).label? = none := by
  cases direction <;> rfl

theorem entering_ne_accept (group : UInt16) (direction : Direction) :
    entering group direction ≠ .accept := by
  cases direction <;> nofun

theorem leaving_ne_accept (group : UInt16) (direction : Direction) :
    leaving group direction ≠ .accept := by
  cases direction <;> nofun

end Instruction

namespace Program

/-- The address that has opened the capture of the group which is open at an address. -/
def openCapture (program : Program) (group : UInt16) : Nat → Option Nat
  | 0 => none
  | address + 1 =>
      if (program.instructions[address]?).any (·.delimits group) then
        match program.openCapture group address with
        | none => some address
        | some _ => none
      else program.openCapture group address

variable {program : Program} {group : UInt16} {address opening closed : Nat}
  {instruction : Instruction}

theorem openCapture_flat (found : program.instructions[address]? = some instruction)
    (silent : instruction.delimits group = false) :
    program.openCapture group (address + 1) = program.openCapture group address := by
  simp only [openCapture, found, Option.any_some, silent, Bool.false_eq_true, if_false]

theorem openCapture_opens (found : program.instructions[address]? = some instruction)
    (delimits : instruction.delimits group = true)
    (level : program.openCapture group address = none) :
    program.openCapture group (address + 1) = some address := by
  simp only [openCapture, found, Option.any_some, delimits, if_true, level]

theorem openCapture_closes (found : program.instructions[address]? = some instruction)
    (delimits : instruction.delimits group = true)
    (level : program.openCapture group address = some opening) :
    program.openCapture group (address + 1) = none := by
  simp only [openCapture, found, Option.any_some, delimits, if_true, level]

theorem lt_of_openCapture (level : program.openCapture group address = some opening) :
    opening < address := by
  induction address with
  | zero => cases level
  | succ address induction =>
      rw [openCapture] at level
      split at level
      · split at level
        · cases level
          exact Nat.lt_succ_self _
        · cases level
      · exact Nat.lt_succ_of_lt (induction level)

theorem openCapture_ne (level : program.openCapture group closed = none)
    (before : opening < closed) (behind : closed ≤ address) :
    program.openCapture group address ≠ some opening := by
  induction behind with
  | refl =>
      rw [level]
      nofun
  | @step address behind induction =>
      have behind : closed ≤ address := behind
      intro reopened
      rw [openCapture] at reopened
      split at reopened
      · split at reopened
        · cases reopened
          omega
        · cases reopened
      · exact induction reopened

end Program

namespace Fragment

variable {program : Program} {whole fragment body : Fragment} {group other : UInt16}
  {direction sight : Direction} {first last floor address goal : Nat}
  {instruction : Instruction} {label : Label} {base : Option Nat}

variable [CharacterData]

def CapturesAt (program : Program) (fragment : Fragment) (group : UInt16)
    (direction : Direction) (first last : Nat) : Prop :=
  ∃ body floor, capture group body ∈ fragment.subfragments ∧
    (capture group body).Placed program direction first last floor

/-- At the address, the instruction does not lead into or out of an open capture of the
group, and if it closes one then it is the last instruction of the capture. A program does
not accept while a capture is open. -/
structure Delimited (program : Program) (whole : Fragment) (group : UInt16)
    (address : Nat) (instruction : Instruction) : Prop where
  leads : ∀ label goal, instruction.label? = some label → program.target? label = some goal →
    program.openCapture group goal = program.openCapture group address
  closes : instruction.delimits group = true → ∀ opening,
    program.openCapture group address = some opening →
      ∃ direction, whole.CapturesAt program group direction opening (address + 1)
  accepts : instruction = .accept → program.openCapture group address = none

theorem steers_delimited (program : Program) (whole : Fragment) (group : UInt16) :
    program.Steers (program.openCapture group) (Delimited program whole group) where
  flat address instruction found plain := by
    refine Program.openCapture_flat found ?_
    cases instruction <;> first | rfl | cases plain
  keeps address instruction found plain leads loops := by
    refine ⟨fun label goal same bound => ?_, fun delimits => ?_, ?_⟩
    · obtain ⟨other, target, -, level⟩ := leads label same
      rw [bound] at target
      cases target
      exact level
    · cases instruction <;> first | cases delimits | cases plain
    · rintro rfl
      cases plain

theorem delimited_silent (found : program.instructions[first]? = some instruction)
    (silent : instruction.delimits group = false) (opens : instruction ≠ .accept)
    (leads : ∀ label goal, instruction.label? = some label →
      program.target? label = some goal →
        program.openCapture group goal = program.openCapture group first) :
    program.Steady (program.openCapture group) (Delimited program whole group) first
      (first + 1) := by
  refine .single found (Program.openCapture_flat found silent) ⟨leads, ?_, ?_⟩
  · intro delimits
    rw [silent] at delimits
    cases delimits
  · exact fun accepts => absurd accepts opens

/-- The fragment is a part of the whole one. If a capture of the group is open there, the
fragment has none of its own, and else its captures are apart. -/
structure Fits (whole : Fragment) (group : UInt16) (fragment : Fragment) (base : Option Nat) :
    Prop where
  within : ∀ part ∈ fragment.subfragments, part ∈ whole.subfragments
  apart : fragment.Throughout (Spares group) ∨ base = none ∧ fragment.CapturesApart

omit [CharacterData] in
theorem Fits.part (fits : Fits whole group fragment base)
    (within : ∀ inner ∈ body.subfragments, inner ∈ fragment.subfragments) :
    Fits whole group body base where
  within inner member := fits.within inner (within inner member)
  apart := fits.apart.imp (fun spares inner member => spares inner (within inner member))
    (And.imp_right fun apart inner member => apart inner (within inner member))

theorem placed_capture
    (placed : (capture group body).Placed program direction first last floor) :
    ∃ middle, last = middle + 1 ∧
      program.instructions[first]? = some (.entering group direction) ∧
        body.Placed program direction (first + 1) middle floor ∧
          program.instructions[middle]? = some (.leaving group direction) := by
  cases direction <;> exact placed

theorem delimited_own {middle : Nat}
    (entered : program.instructions[first]? = some (.entering group direction))
    (left : program.instructions[middle]? = some (.leaving group direction))
    (level : program.openCapture group first = none)
    (within : program.openCapture group (first + 1) = some first →
      program.Steady (program.openCapture group) (Delimited program whole group)
        (first + 1) middle)
    (captures : whole.CapturesAt program group direction first (middle + 1)) :
    program.Steady (program.openCapture group) (Delimited program whole group) first
      (middle + 1) := by
  have enters : (Instruction.entering group direction).delimits group = true := by
    rw [Instruction.delimits_entering, beq_self_eq_true]
  have leaves : (Instruction.leaving group direction).delimits group = true := by
    rw [Instruction.delimits_leaving, beq_self_eq_true]
  have opened := Program.openCapture_opens entered enters level
  have steady := within opened
  have ends := steady.level_eq.trans opened
  have closed := Program.openCapture_closes left leaves ends
  refine ⟨closed.trans level.symm, fun address behind before instruction read => ?_⟩
  rcases Nat.lt_trichotomy address middle with earlier | rfl | later
  · rcases Nat.eq_or_lt_of_le behind with rfl | behind
    · rw [entered] at read
      cases read
      refine ⟨fun label goal labelled => ?_, fun _ opening open_ => ?_,
        fun accepts => absurd accepts (Instruction.entering_ne_accept group direction)⟩
      · rw [Instruction.label?_entering] at labelled
        cases labelled
      · rw [level] at open_
        cases open_
    · exact steady.keeps address behind earlier instruction read
  · rw [left] at read
    cases read
    refine ⟨fun label goal labelled => ?_, fun _ opening open_ => ?_,
      fun accepts => absurd accepts (Instruction.leaving_ne_accept group direction)⟩
    · rw [Instruction.label?_leaving] at labelled
      cases labelled
    · rw [ends] at open_
      cases open_
      exact ⟨direction, captures⟩
  · omega

/-- A capture keeps to the captures of the group if its body does, be it one of them or
not. -/
theorem delimited_capture
    (within : ∀ base, Fits whole group body base →
      body.SteadyAt program (program.openCapture group) (Delimited program whole group) base)
    (fits : Fits whole group (capture other body) base) :
    (capture other body).SteadyAt program (program.openCapture group)
      (Delimited program whole group) base := by
  intro direction first last floor placed
  obtain ⟨middle, rfl, entered, lies, left⟩ := placed_capture placed
  by_cases same : other = group
  · subst same
    obtain ⟨rfl, apart⟩ := fits.apart.resolve_left fun spares => spares.here rfl
    have inner : Fits whole other body (some first) :=
      ⟨fun part member => fits.within part (List.mem_cons_of_mem _ member), .inl apart.here⟩
    obtain ⟨ordered, steady⟩ := within _ inner _ _ _ _ lies
    have captures : whole.CapturesAt program other direction first (middle + 1) :=
      ⟨body, floor, fits.within _ List.mem_cons_self, placed⟩
    refine ⟨by omega, fun inside level => ?_⟩
    exact delimited_own entered left level (steady (by omega)) captures
  · have silent : (other == group) = false := beq_eq_false_iff_ne.mpr same
    obtain ⟨ordered, steady⟩ :=
      within _ (fits.part fun _ => List.mem_cons_of_mem _) _ _ _ _ lies
    refine ⟨by omega, fun inside level => ?_⟩
    have enters : program.Steady (program.openCapture group) (Delimited program whole group)
        first (first + 1) := by
      refine delimited_silent entered ?_ (Instruction.entering_ne_accept other direction) ?_
      · rw [Instruction.delimits_entering, silent]
      · rw [Instruction.label?_entering]
        nofun
    have leaves : program.Steady (program.openCapture group) (Delimited program whole group)
        middle (middle + 1) := by
      refine delimited_silent left ?_ (Instruction.leaving_ne_accept other direction) ?_
      · rw [Instruction.delimits_leaving, silent]
      · rw [Instruction.label?_leaving]
        nofun
    have body_steady := steady (by omega) (enters.level_eq.trans level)
    exact enters.trans (body_steady.trans leaves)

theorem delimited_leading (whole : Fragment)
    (found : program.instructions[first]? = some instruction)
    (silent : instruction.delimits group = false) (opens : instruction ≠ .accept)
    (labelled : instruction.label? = some label)
    (bound : program.target? label = some goal)
    (level : program.openCapture group goal = program.openCapture group first) :
    program.Steady (program.openCapture group) (Delimited program whole group) first
      (first + 1) := by
  refine delimited_silent found silent opens fun other target same leads => ?_
  rw [labelled] at same
  cases same
  rw [bound] at leads
  cases leads
  exact level

theorem delimited_guarded {middle : Nat} {keep : Bool} (whole : Fragment)
    (saved : program.instructions[first]? = some (.save label))
    (committed : program.instructions[middle]? = some (.clearThrough label keep))
    (bound : program.target? label = some goal)
    (resumes : program.openCapture group goal = program.openCapture group middle)
    (within : program.Steady (program.openCapture group) (Delimited program whole group)
      (first + 1) middle) :
    program.Steady (program.openCapture group) (Delimited program whole group) first
      (middle + 1) := by
  have saves : program.openCapture group (first + 1) = program.openCapture group first :=
    Program.openCapture_flat saved rfl
  have enters := delimited_leading whole saved rfl nofun rfl bound
    (resumes.trans (within.level_eq.trans saves))
  have leaves := delimited_leading whole committed rfl nofun rfl bound resumes
  exact enters.trans (within.trans leaves)

theorem delimited_lookaround {negated : Bool}
    (within : ∀ base, Fits whole group body base →
      body.SteadyAt program (program.openCapture group) (Delimited program whole group) base)
    (fits : Fits whole group (lookaround sight negated body) base) :
    (lookaround sight negated body).SteadyAt program (program.openCapture group)
      (Delimited program whole group) base := by
  intro direction first last floor placed
  have steers := steers_delimited program whole group
  have inner : Fits whole group body base := fits.part fun _ => List.mem_cons_of_mem _
  cases negated with
  | true =>
      obtain ⟨done, middle, rfl, saved, bound, placed, committed, failed⟩ := placed
      obtain ⟨ordered, steady⟩ := within _ inner _ _ _ _ placed
      refine ⟨by omega, fun inside level => ?_⟩
      have saves : program.openCapture group (first + 1) = program.openCapture group first :=
        Program.openCapture_flat saved rfl
      have commits : program.openCapture group (middle + 1) = program.openCapture group middle :=
        Program.openCapture_flat committed rfl
      have fails := steers.leaf failed rfl rfl
      have guarded := delimited_guarded whole saved committed bound
        (fails.level_eq.trans commits) (steady (by omega) (saves.trans level))
      exact guarded.trans fails
  | false =>
      obtain ⟨failure, done, middle, rfl, saved, bound, placed, committed, jumped, leads,
        failed⟩ := placed
      obtain ⟨ordered, steady⟩ := within _ inner _ _ _ _ placed
      refine ⟨by omega, fun inside level => ?_⟩
      have saves : program.openCapture group (first + 1) = program.openCapture group first :=
        Program.openCapture_flat saved rfl
      have commits : program.openCapture group (middle + 1) = program.openCapture group middle :=
        Program.openCapture_flat committed rfl
      have jumps : program.openCapture group (middle + 2) =
          program.openCapture group (middle + 1) :=
        Program.openCapture_flat jumped rfl
      have fails := steers.leaf failed rfl rfl
      have guarded := delimited_guarded whole saved committed bound
        (jumps.trans commits) (steady (by omega) (saves.trans level))
      have across := delimited_leading whole jumped rfl nofun rfl leads
        (fails.level_eq.trans jumps)
      exact guarded.trans (across.trans fails)

theorem delimited_of_compile {entry : Direction} {granularity : Granularity}
    (apart : whole.CapturesApart)
    (compiled : whole.compile entry granularity = .ok program) (group : UInt16)
    (address : Nat) (instruction : Instruction)
    (found : program.instructions[address]? = some instruction) :
    Delimited program whole group address instruction := by
  have inherits : Inherits program (program.openCapture group) (Delimited program whole group)
      (Fits whole group) :=
    { sequence := fun fits part member => fits.part fun _ inside =>
        List.mem_cons_of_mem _ (mem_subfragmentsEach.mpr ⟨part, member, inside⟩)
      alternation := fun fits part member => fits.part fun _ inside =>
        List.mem_cons_of_mem _ (mem_subfragmentsEach.mpr ⟨part, member, inside⟩)
      repetition := fun fits => fits.part fun _ => List.mem_cons_of_mem _
      capture := fun within _ fits => delimited_capture within fits
      lookaround := fun within _ fits => delimited_lookaround within fits }
  obtain ⟨last, placed, accepts, size⟩ := placed_of_compile compiled
  obtain ⟨-, steady⟩ := steadyAt (steers_delimited program whole group) inherits whole none
    ⟨fun _ => id, .inr ⟨rfl, apart⟩⟩ entry 0 last 0 placed
  have steady := steady (by omega) rfl
  obtain ⟨inside, -⟩ := Array.getElem?_eq_some_iff.mp found
  rcases Nat.lt_or_ge address last with before | behind
  · exact steady.keeps address (Nat.zero_le _) before instruction found
  · obtain rfl : address = last := by omega
    rw [accepts] at found
    cases found
    exact ⟨nofun, nofun, fun _ => steady.level_eq⟩

end Fragment

end RegexMachine
