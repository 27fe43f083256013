import RegexMachine.Proofs.Machine.Restoration
import RegexMachine.Proofs.Machine.StackDepth
import RegexMachine.Proofs.Machine.Yields
import RegexMachine.Proofs.Program.Nesting

/-! # Commits of a nested program

The marked save points on the stack of a nested program are those that are open
at the address, one for each and in the same order, and every other save point
resumes where the ones below it are open. So a commit finds the save point that
its own instruction has pushed last, and no other one resumes where it does. -/

namespace RegexMachine

namespace Program

/-- The stack holds one marked save point for each instruction at the addresses,
and unmarked ones that resume where those are open. -/
inductive Fits (program : Program) : List Nat → List SavePoint → Prop
  | empty : Fits program [] []
  | plain {opens : List Nat} {save : SavePoint} {rest : List SavePoint}
      (unmarked : save.marker = false) (level : program.openSaves save.resume = opens)
      (fits : Fits program opens rest) : Fits program opens (save :: rest)
  | marked {opening : Nat} {label : Label} {save : SavePoint} {rest : List SavePoint}
      (marker : save.marker = true)
      (found : program.instructions[opening]? = some (.save label))
      (bound : program.target? label = some save.resume)
      (fits : Fits program (program.openSaves opening) rest) :
      Fits program (opening :: program.openSaves opening) (save :: rest)

namespace Fits

variable {program : Program} {opening : Nat} {opens : List Nat} {points rest : List SavePoint}
  {save : SavePoint}

theorem innermost (fits : program.Fits (opening :: opens) points) :
    ∃ own save rest label, points = own ++ save :: rest ∧ (∀ other ∈ own, other.marker = false) ∧
      save.marker = true ∧ program.instructions[opening]? = some (.save label) ∧
        program.target? label = some save.resume ∧ opens = program.openSaves opening ∧
          program.Fits opens rest := by
  generalize shape : opening :: opens = all at fits
  induction fits with
  | empty => cases shape
  | @plain _ newest _ unmarked _ _ induction =>
      obtain ⟨own, save, rest, label, rfl, plain, marked⟩ := induction shape
      refine ⟨newest :: own, save, rest, label, rfl, ?_, marked⟩
      exact List.forall_mem_cons.mpr ⟨unmarked, plain⟩
  | @marked _ label save rest marker found bound fits _ =>
      cases shape
      exact ⟨[], save, rest, label, rfl, nofun, marker, found, bound, rfl, fits⟩

theorem exists_opening (fits : program.Fits opens points) (member : save ∈ points)
    (marker : save.marker = true) :
    ∃ opening ∈ opens, ∃ label, program.instructions[opening]? = some (.save label) ∧
      program.target? label = some save.resume := by
  induction fits with
  | empty => cases member
  | plain unmarked _ _ induction =>
      rcases List.mem_cons.mp member with rfl | member
      · rw [marker] at unmarked
        cases unmarked
      · exact induction member
  | marked _ found bound _ induction =>
      rcases List.mem_cons.mp member with rfl | member
      · exact ⟨_, List.mem_cons_self, _, found, bound⟩
      · obtain ⟨opening, inside, opened⟩ := induction member
        exact ⟨opening, List.mem_cons_of_mem _ inside, opened⟩

theorem resume (fits : program.Fits opens (save :: rest)) (nested : program.Nested) :
    program.Fits (program.openSaves save.resume) rest := by
  cases fits with
  | plain _ level fits =>
      subst level
      exact fits
  | marked _ found bound fits =>
      rw [(nested.levels_save found bound).2]
      exact fits

theorem commitTo?_eq_none {stack : SaveStack} {label : Label} {goal : Nat}
    (fits : program.Fits (program.openSaves opening) stack.points) (nested : program.Nested)
    (found : program.instructions[opening]? = some (.save label))
    (bound : program.target? label = some goal) : stack.commitTo? goal = none := by
  rw [SaveStack.commitTo?_eq_none_iff]
  intro other member marker resumes
  obtain ⟨outer, inside, _, others, leads⟩ := fits.exists_opening member marker
  rw [resumes] at leads
  obtain rfl := nested.save_unique found bound others leads
  exact Nat.lt_irrefl _ (lt_of_mem_openSaves inside)

end Fits

end Program

def State.Fits (state : State) (program : Program) : Prop :=
  program.Fits (program.openSaves state.address) state.saves.points

namespace State.Fits

variable {program : Program} {subject : Subject} {state next : State}
  {instruction : Instruction} {label : Label} {keep : Bool} {goal : Nat}

theorem commitTo?_eq (fits : state.Fits program) (nested : program.Nested)
    (found : program.instructions[state.address]? = some (.clearThrough label keep))
    (bound : program.target? label = some goal) :
    ∃ opening save below, program.instructions[opening]? = some (.save label) ∧
      program.openSaves state.address = opening :: program.openSaves opening ∧
        state.saves.commitTo? goal = some (save, below) ∧
          program.Fits (program.openSaves opening) below.points := by
  obtain ⟨opening, opens, enclosing⟩ := nested _ _ found
  rw [State.Fits, enclosing] at fits
  obtain ⟨own, save, rest, other, shape, unmarked, marker, pushes, resumes, -, fits⟩ :=
    fits.innermost
  rw [opens] at pushes
  cases pushes
  rw [bound] at resumes
  cases resumes
  have above : state.saves.Above (SaveStack.push ⟨rest, rest.length, rfl⟩ save) :=
    ⟨own, shape, unmarked⟩
  exact ⟨opening, save, _, opens, enclosing, above.commitTo? marker, fits⟩

theorem backtrack (fits : state.Fits program) (nested : program.Nested)
    (back : state.counted.backtrack? = some next) : next.Fits program := by
  obtain ⟨save, rest, shape, rfl⟩ := State.backtrack?_eq_some back
  have shape : state.saves.points = save :: rest.points := shape
  rw [State.Fits, shape] at fits
  exact fits.resume nested

variable [CharacterData]

theorem proceed (fits : state.Fits program) (nested : program.Nested)
    (found : program.instructions[state.address]? = some instruction)
    (proceeds : instruction.Proceeds program subject state.counted next) :
    next.Fits program := by
  have nests := nested _ _ found
  have here : program.Fits (program.openSaves state.address) state.saves.points := fits
  have following (plain : instruction.isBracket = false) :
      program.openSaves (state.address + 1) = program.openSaves state.address :=
    Program.openSaves_plain found plain
  have stay (plain : instruction.isBracket = false) :
      program.Fits (program.openSaves (state.address + 1)) state.saves.points := by
    rw [following plain]
    exact here
  have level {label address} (levels : program.Levels state.address label)
      (bound : program.target? label = some address) :
      program.openSaves address = program.openSaves state.address := by
    obtain ⟨goal, target, -, same⟩ := levels
    rw [bound] at target
    cases target
    exact same
  have go {label address} (levels : program.Levels state.address label)
      (bound : program.target? label = some address) :
      program.Fits (program.openSaves address) state.saves.points := by
    rw [level levels bound]
    exact here
  cases proceeds with
  | consume consumes => exact stay (by cases consumes <;> rfl)
  | unset => exact stay rfl
  | anchor => exact stay rfl
  | start => exact stay rfl
  | demand => exact stay rfl
  | setStart => exact stay rfl
  | setEnd => exact stay rfl
  | jump bound => exact go nests bound
  | full bound => exact go nests bound
  | again _ bound => exact go nests.1 bound
  | branch bound =>
      exact .plain rfl ((following rfl).trans (level nests bound).symm) (go nests bound)
  | less bound => exact .plain rfl ((following rfl).trans (level nests bound).symm) (go nests bound)
  | more bound => exact .plain rfl ((level nests bound).trans (following rfl).symm) (stay rfl)
  | save bound =>
      change program.Fits (program.openSaves (state.address + 1)) _
      rw [Program.openSaves_save found]
      exact .marked rfl found bound here
  | clear => exact nests.elim
  | commit bound committed keep =>
      obtain ⟨opening, save, below, -, enclosing, finds, fits⟩ :=
        fits.commitTo?_eq nested found bound
      have same : state.saves.commitTo? _ = some _ := committed
      rw [finds] at same
      cases same
      change program.Fits (program.openSaves (state.address + 1)) _
      rw [Program.openSaves_clearThrough found, enclosing]
      exact fits

end State.Fits

namespace Attempt

variable {attempt : Attempt} {origin state next pusher : State} {save : SavePoint}
  {label : Label} {keep : Bool}

theorem fits_setOut (attempt : Attempt) (left : State) :
    (attempt.setOut left).Fits attempt.program :=
  .empty

variable [CharacterData]

theorem fits_reaches (valid : attempt.program.Valid) (nested : attempt.program.Nested)
    (bounds : attempt.Bounds origin) (fits : origin.Fits attempt.program)
    (path : attempt.Reaches origin state) : state.Fits attempt.program := by
  induction path with
  | refl => exact fits
  | tail path step induction =>
      have bounds := bounds.reaches valid path
      obtain ⟨instruction, found, -, proceeds | back⟩ :=
        step.cases valid bounds.sized bounds.address
      · exact induction.proceed nested found proceeds
      · exact induction.backtrack nested back

omit [CharacterData] in
theorem not_strands (nested : attempt.program.Nested) (fits : state.Fits attempt.program) :
    ¬attempt.Strands state := by
  intro strands
  obtain ⟨-, -, target, keep, goal, found, bound, missing⟩ := strands
  obtain ⟨_, _, _, -, -, finds, -⟩ := fits.commitTo?_eq nested found bound
  rw [SaveStack.commitTo?_eq_none_iff.mpr missing] at finds
  cases finds

/-! ## Activations -/

omit [CharacterData] in
theorem pushes_marked {program : Program} {moment : State} {instruction : Instruction}
    {resume : Nat} (pushes : instruction.Pushes program state moment resume true) :
    ∃ target, instruction = .save target ∧ moment = state ∧
      program.target? target = some resume := by
  cases pushes with
  | save bound => exact ⟨_, rfl, rfl, bound⟩

def Avoids (attempt : Attempt) (address : Nat) : State → State → Prop :=
  Relation.ReflTransGen fun state next => attempt.Next state next ∧ next.address ≠ address

/-- The save point was pushed when its instruction was last executed, and has been
on the stack ever since. -/
structure Activation (attempt : Attempt) (origin pusher : State) (save : SavePoint)
    (state : State) : Prop where
  pushed : attempt.Pushed origin pusher pusher.counted save state
  latest : ∃ first, attempt.Next pusher first ∧ attempt.Avoids pusher.address first state

omit [CharacterData] in
theorem ne_of_mem_saves (nested : attempt.program.Nested) (fits : state.Fits attempt.program)
    {opening : Nat} (found : attempt.program.instructions[opening]? = some (.save label))
    (bound : attempt.program.target? label = some save.resume)
    (member : save ∈ state.saves.points) (marker : save.marker = true) :
    state.address ≠ opening := by
  intro here
  obtain ⟨other, opens, _, others, same⟩ := fits.exists_opening member marker
  obtain rfl := nested.save_unique found bound others same
  rw [here] at opens
  exact Nat.lt_irrefl _ (Program.lt_of_mem_openSaves opens)

/-- While its save point is on the stack, the instruction that has pushed it is
not executed again. -/
theorem avoids_of_keeps (valid : attempt.program.Valid) (nested : attempt.program.Nested)
    (bounds : attempt.Bounds state) (fits : state.Fits attempt.program) {opening : Nat}
    {below : SaveStack}
    (found : attempt.program.instructions[opening]? = some (.save label))
    (bound : attempt.program.target? label = some save.resume) (marker : save.marker = true)
    (keeps : attempt.Keeps below save state next) : attempt.Avoids opening state next := by
  induction keeps with
  | refl => exact .refl
  | @tail middle next keeps step induction =>
      have path := Keeps.reaches keeps
      have fits := fits_reaches valid nested bounds fits (path.tail step.1)
      exact induction.tail ⟨step.1, ne_of_mem_saves nested fits found bound step.2.mem marker⟩

/-- What a commit finds: the save point of its own activation, at which the stack
was as it is again after the commit. The instruction that pushes it is the only
one whose save points resume where it does, and none of them is below it. -/
structure CommitsOwn (attempt : Attempt) (origin state : State) (label : Label)
    (goal : Nat) (pusher : State) (save : SavePoint) : Prop where
  bound : attempt.program.target? label = some goal
  opening : attempt.program.instructions[pusher.address]? = some (.save label)
  only : ∀ (other : Nat) target, attempt.program.instructions[other]? = some (.save target) →
    attempt.program.target? target = some goal → other = pusher.address
  activation : attempt.Activation origin pusher save state
  finds : state.saves.commitTo? goal = some (save, pusher.saves)
  alone : pusher.saves.commitTo? goal = none

theorem commitsOwn (valid : attempt.program.Valid) (nested : attempt.program.Nested)
    (admitted : attempt.Admitted) (left : State)
    (path : attempt.Reaches (attempt.setOut left) state)
    (found : attempt.program.instructions[state.address]? = some (.clearThrough label keep)) :
    ∃ goal pusher save, attempt.CommitsOwn (attempt.setOut left) state label goal pusher save := by
  have start := Bounds.setOut valid admitted left
  have fits := fits_reaches valid nested start (fits_setOut attempt left) path
  obtain ⟨opening, opens, -⟩ := nested _ _ found
  obtain ⟨⟨goal, bound, -⟩, -⟩ := nested _ _ opens
  obtain ⟨opening, save, below, opens, -, finds, lower⟩ := fits.commitTo?_eq nested found bound
  obtain ⟨above, shape, marker, resumes⟩ := SaveStack.points_of_commitTo? finds
  subst resumes
  obtain ⟨pusher, moment, pushed, rfl, -⟩ :=
    (remembers_setOut attempt left).reaches valid start path save below ⟨above, shape⟩
  obtain ⟨instruction, pushing, pushes⟩ := pushed.instruction
  rw [marker] at pushes
  obtain ⟨target, rfl, rfl, same⟩ := pushes_marked pushes
  obtain rfl := nested.save_unique pushing same opens bound
  rw [opens] at pushing
  cases pushing
  refine ⟨_, pusher, save, same, opens, fun other target found resumes =>
    nested.save_unique opens same found resumes, ⟨pushed, ?_⟩, finds,
    lower.commitTo?_eq_none nested opens same⟩
  obtain ⟨first, step, saves, keeps⟩ := pushed.stays
  have onward := pushed.reached.tail step
  exact ⟨first, step, avoids_of_keeps valid nested (start.reaches valid onward)
    (fits_reaches valid nested start (fits_setOut attempt left) onward) opens same marker keeps⟩

end Attempt

end RegexMachine
