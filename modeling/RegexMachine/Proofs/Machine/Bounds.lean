import Mathlib
import RegexMachine.Proofs.Capture.Contents
import RegexMachine.Proofs.Machine.Transitions
import RegexMachine.Proofs.Text.Limits
import RegexMachine.Rune.Repertoire

/-! # Bounds that every run keeps

A valid program is fetched from its own instructions only, whatever path of
jumps and returns led to the address, and nothing that its state holds lies
outside of the limits of the subject. -/

namespace RegexMachine

/-! ## The stack of save points -/

namespace SaveStack

variable {stack rest : SaveStack} {save : SavePoint} {goal : Nat}

theorem points_of_pop? (popped : stack.pop? = some (save, rest)) :
    stack.points = save :: rest.points := by
  rcases stack with ⟨points, size, size_eq⟩
  cases points with
  | nil => cases popped
  | cons head tail =>
      cases popped
      rfl

theorem points_of_pop?_none (popped : stack.pop? = none) : stack.points = [] := by
  rcases stack with ⟨points, size, size_eq⟩
  cases points with
  | nil => rfl
  | cons head tail => cases popped

private theorem points_of_commitAmong? {points : List SavePoint} {size : Nat}
    {size_eq : size = points.length}
    (found : commitAmong? goal points size size_eq = some (save, rest)) :
    ∃ above, points = above ++ save :: rest.points ∧
      save.marker = true ∧ save.resume = goal := by
  induction points generalizing size with
  | nil => cases found
  | cons head tail induction =>
      rw [commitAmong?] at found
      split at found
      · next wanted =>
          cases found
          simp only [Bool.and_eq_true, beq_iff_eq] at wanted
          exact ⟨[], rfl, wanted⟩
      · rcases induction found with ⟨above, shape, wanted⟩
        exact ⟨head :: above, by rw [shape]; rfl, wanted⟩

theorem points_of_commitTo? (found : stack.commitTo? goal = some (save, rest)) :
    ∃ above, stack.points = above ++ save :: rest.points ∧
      save.marker = true ∧ save.resume = goal :=
  points_of_commitAmong? found

end SaveStack

theorem State.backtrack?_eq_some {state next : State} (back : state.backtrack? = some next) :
    ∃ save rest, state.saves.points = save :: rest.points ∧
      next =
        { state with
          address := save.resume
          position := save.position
          saves := rest
          journal := state.journal.rollBack save.height } := by
  rw [State.backtrack?] at back
  split at back
  · cases back
  · next save rest popped =>
      cases back
      exact ⟨save, rest, SaveStack.points_of_pop? popped, rfl⟩

/-- The registers of groups hold positions within the limits. -/
def Subject.Holds (subject : Subject) (register : Register) (value : Nat) : Prop :=
  match register with
  | .groupStart _ | .groupEnd _ => subject.covers value = true
  | .count _ | .origin _ => True

namespace Attempt

/-- Apart from its address, the state stays within the program and the
subject. -/
structure Contains (attempt : Attempt) (state : State) : Prop where
  position : attempt.subject.covers state.position = true
  resumes : ∀ save ∈ state.saves.points,
    save.resume < attempt.program.instructions.size
  positions : ∀ save ∈ state.saves.points, attempt.subject.covers save.position = true
  heights : state.saves.points.Pairwise fun newer older => older.height ≤ newer.height
  height : ∀ save ∈ state.saves.points, save.height ≤ state.journal.height
  sized : state.journal.Sized attempt.program.captureCount attempt.program.counterCount
  captures : state.journal.Holds attempt.subject.Holds

namespace Contains

variable {attempt : Attempt} {state : State}

theorem setOut (admitted : attempt.Admitted) (left : State) :
    attempt.Contains (attempt.setOut left) where
  position := admitted.covered
  resumes _ member := nomatch member
  positions _ member := nomatch member
  heights := .nil
  height _ member := nomatch member
  sized := left.journal.sized_reset _ _
  captures := .reset left.journal _ _

theorem goTo (contains : attempt.Contains state) (address steps : Nat) :
    attempt.Contains { state with address, steps } :=
  ⟨contains.position, contains.resumes, contains.positions, contains.heights,
    contains.height, contains.sized, contains.captures⟩

theorem move (contains : attempt.Contains state) {position : Nat}
    (covered : attempt.subject.covers position = true) :
    attempt.Contains { state with position } :=
  ⟨covered, contains.resumes, contains.positions, contains.heights, contains.height,
    contains.sized, contains.captures⟩

theorem push (contains : attempt.Contains state) {resume : Nat} (marker : Bool)
    (inside : resume < attempt.program.instructions.size) :
    attempt.Contains (state.push resume marker) where
  position := contains.position
  resumes := List.forall_mem_cons.mpr ⟨inside, contains.resumes⟩
  positions := List.forall_mem_cons.mpr ⟨contains.position, contains.positions⟩
  heights := List.pairwise_cons.mpr ⟨contains.height, contains.heights⟩
  height := List.forall_mem_cons.mpr ⟨Nat.le_refl _, contains.height⟩
  sized := contains.sized
  captures := contains.captures

theorem drop (contains : attempt.Contains state) (above : List SavePoint)
    {rest : SaveStack} (shape : state.saves.points = above ++ rest.points) :
    attempt.Contains { state with saves := rest } := by
  have older : ∀ save ∈ rest.points, save ∈ state.saves.points := by
    intro save member
    rw [shape]
    exact List.mem_append_right above member
  refine ⟨contains.position, fun save member => contains.resumes save (older save member),
    fun save member => contains.positions save (older save member), ?_,
    fun save member => contains.height save (older save member), contains.sized,
    contains.captures⟩
  have heights := contains.heights
  rw [shape] at heights
  exact (List.pairwise_append.mp heights).2.1

theorem write (contains : attempt.Contains state) {register : Register}
    (fits : register.Fits state.journal.groups) {content : Option Nat}
    (covered : ∀ value, content = some value → attempt.subject.Holds register value) :
    attempt.Contains { state with journal := state.journal.write register content } where
  position := contains.position
  resumes := contains.resumes
  positions := contains.positions
  heights := contains.heights
  height save member := Nat.le_succ_of_le (contains.height save member)
  sized := (Journal.sized_write _ _ _).mpr contains.sized
  captures := contains.captures.write fits covered

theorem writeCount (contains : attempt.Contains state) (counter : Nat) (content : Option Nat) :
    attempt.Contains { state with journal := state.journal.setCount counter content } :=
  contains.write (Register.fits_count _ _) fun _ _ => trivial

theorem writeOrigin (contains : attempt.Contains state) (counter : Nat) (content : Option Nat) :
    attempt.Contains { state with journal := state.journal.setOrigin counter content } :=
  contains.write (Register.fits_origin _ _) fun _ _ => trivial

theorem beginIteration (contains : attempt.Contains state) (counter : UInt16) :
    attempt.Contains (state.beginIteration counter) :=
  contains.writeOrigin _ _

theorem rollBack (contains : attempt.Contains state) {height : Nat}
    (below : ∀ save ∈ state.saves.points, save.height ≤ height) :
    attempt.Contains { state with journal := state.journal.rollBack height } where
  position := contains.position
  resumes := contains.resumes
  positions := contains.positions
  heights := contains.heights
  height save member := by
    rw [Journal.rollBack_height]
    exact Nat.le_min.mpr ⟨below save member, contains.height save member⟩
  sized := (Journal.sized_rollBack _ _).mpr contains.sized
  captures := contains.captures.rollBack height

theorem height_le (contains : attempt.Contains state) {above : List SavePoint}
    {save : SavePoint} {rest : SaveStack}
    (shape : state.saves.points = above ++ save :: rest.points) :
    ∀ older ∈ rest.points, older.height ≤ save.height := by
  have heights := contains.heights
  rw [shape] at heights
  exact (List.pairwise_cons.mp (List.pairwise_append.mp heights).2.1).1

theorem commit (contains : attempt.Contains state) (above : List SavePoint)
    {save : SavePoint} {rest : SaveStack}
    (shape : state.saves.points = above ++ save :: rest.points) (keep : Bool) :
    attempt.Contains
      { state with
        position := save.position
        saves := rest
        journal := if keep then state.journal else state.journal.rollBack save.height } := by
  have shorter : state.saves.points = (above ++ [save]) ++ rest.points := by
    rw [shape, List.append_assoc]
    rfl
  have dropped := contains.drop (above ++ [save]) shorter
  have moved := dropped.move (contains.positions save (by rw [shape]; simp))
  cases keep with
  | true => exact moved
  | false => exact moved.rollBack (contains.height_le shape)

theorem backtrack (contains : attempt.Contains state) {next : State}
    (back : state.backtrack? = some next) :
    attempt.Contains next ∧ next.address < attempt.program.instructions.size := by
  obtain ⟨save, rest, shape, rfl⟩ := State.backtrack?_eq_some back
  exact ⟨(contains.commit [] shape false).goTo _ _,
    contains.resumes save (by rw [shape]; exact List.mem_cons_self)⟩

end Contains

/-! ## One turn -/

variable [CharacterData]

theorem Contains.consume {attempt : Attempt} {state : State} {instruction : Instruction}
    {position : Nat} (contains : attempt.Contains state)
    (consumes : instruction.Consumes attempt.program attempt.subject state position) :
    attempt.subject.covers position = true := by
  have covered := contains.position
  cases consumes with
  | string _ passes => exact (Subject.passLiteral_onward passes).covers covered
  | any passes => exact (Subject.passUnit_onward passes).covers covered
  | ofClass passes => exact (Subject.passUnit_onward passes).covers covered
  | ofSet _ passes => exact (Subject.passUnit_onward passes).covers covered
  | backref _ _ passes => exact (Subject.passLiteral_onward passes).covers covered
  | advance passes => exact (Subject.passUnits_onward covered passes).covers covered

end Attempt

variable [CharacterData] in
theorem Instruction.Consumes.opens {program : Program} {subject : Subject} {state : State}
    {instruction : Instruction} {position : Nat}
    (consumes : instruction.Consumes program subject state position) :
    instruction.closesProgram = false := by
  cases consumes <;> rfl

namespace Attempt

variable {attempt : Attempt} {state next : State}

section

variable [CharacterData]

/-- The state stays within the program and the subject, and so does what it
fetches next. -/
structure Bounds (attempt : Attempt) (state : State) : Prop
    extends attempt.Contains state where
  address : state.address < attempt.program.instructions.size

theorem Bounds.proceed {instruction : Instruction} (contains : attempt.Contains state)
    (following : instruction.closesProgram = false →
      state.address < attempt.program.instructions.size)
    (resolves : instruction.Resolves attempt.program)
    (proceeds : instruction.Proceeds attempt.program attempt.subject state next) :
    attempt.Bounds next := by
  cases proceeds with
  | consume consumes =>
      exact ⟨contains.move (contains.consume consumes), following consumes.opens⟩
  | unset => exact ⟨contains, following rfl⟩
  | anchor => exact ⟨contains, following rfl⟩
  | jump target => exact ⟨contains.goTo _ _, resolves.lt target⟩
  | branch target =>
      exact ⟨(contains.push false (following rfl)).goTo _ _, resolves.lt target⟩
  | save target => exact ⟨contains.push true (resolves.lt target), following rfl⟩
  | clear popped =>
      exact ⟨contains.drop [_] (SaveStack.points_of_pop? popped), following rfl⟩
  | commit target found keep =>
      rcases SaveStack.points_of_commitTo? found with ⟨above, shape, -⟩
      exact ⟨contains.commit above shape keep, following rfl⟩
  | start counter =>
      exact ⟨(contains.writeCount _ _).writeOrigin counter.toNat none, following rfl⟩
  | demand => exact ⟨contains.beginIteration _, following rfl⟩
  | full target => exact ⟨contains.goTo _ _, resolves.2.1.lt target⟩
  | more target =>
      exact ⟨(contains.push false (resolves.2.1.lt target)).beginIteration _,
        following rfl⟩
  | less target =>
      exact ⟨((contains.beginIteration _).push false (following rfl)).goTo _ _,
        resolves.2.1.lt target⟩
  | again loops target =>
      rcases resolves with ⟨-, address, greed, min, max, exit, found, head⟩
      exact ⟨(contains.writeCount _ _).goTo _ _,
        (Program.binds_of_loop found head).lt target⟩
  | setStart group inside =>
      refine ⟨contains.write (Register.fits_groupStart inside) ?_, following rfl⟩
      intro _ equal
      cases equal
      exact contains.position
  | setEnd group inside =>
      refine ⟨contains.write (Register.fits_groupEnd inside) ?_, following rfl⟩
      intro _ equal
      cases equal
      exact contains.position

theorem Bounds.turn (valid : attempt.program.Valid) (bounds : attempt.Bounds state)
    (step : attempt.Next state next) : attempt.Bounds next := by
  have counted : attempt.Contains state.counted := bounds.toContains.goTo _ _
  rcases step.cases valid bounds.sized bounds.address with
    ⟨instruction, found, resolves, proceeds | back⟩
  · exact .proceed counted (valid.next_lt found) resolves proceeds
  · rcases counted.backtrack back with ⟨contains, address⟩
    exact ⟨contains, address⟩

/-! ## Whole runs -/

omit [CharacterData] in
theorem Bounds.setOut (valid : attempt.program.Valid) (admitted : attempt.Admitted)
    (left : State) : attempt.Bounds (attempt.setOut left) :=
  ⟨.setOut admitted left, valid.nonempty⟩

theorem Bounds.reaches (valid : attempt.program.Valid) (bounds : attempt.Bounds state)
    (path : attempt.Reaches state next) : attempt.Bounds next := by
  induction path with
  | refl => exact bounds
  | tail _ step induction => exact induction.turn valid step

theorem Bounds.turn_ne_badReference (valid : attempt.program.Valid)
    (bounds : attempt.Bounds state) (final : State) :
    attempt.turn state ≠ .done (.error .badReference) final := by
  rcases turn_cases valid bounds.sized bounds.address with
    ⟨-, stopped⟩ | ⟨instruction, effect, -, -, allows, turned⟩
  · rw [stopped]
    simp
  · rw [turned]
    cases allows with
    | proceed => simp [resolve]
    | fail =>
        simp only [resolve]
        split <;> simp
    | accept => simp [resolve]
    | stop => simp [resolve]

/-- Every state that an admitted attempt at a validated program reaches, after
whatever number of turns, is in bounds, and so is every operand of the
instruction that it fetches. -/
theorem reached_in_bounds (validated : attempt.program.validate = .ok ())
    (admitted : attempt.Admitted) (left : State)
    (path : attempt.Reaches (attempt.setOut left) state) :
    attempt.Bounds state ∧
      (∃ instruction, attempt.program.instructions[state.address]? = some instruction ∧
        instruction.Resolves attempt.program) ∧
      ∀ final, attempt.turn state ≠ .done (.error .badReference) final := by
  have valid := Program.validate_eq_ok_iff.mp validated
  have bounds := (Bounds.setOut valid admitted left).reaches valid path
  have fetched := Array.getElem?_eq_getElem bounds.address
  exact ⟨bounds, ⟨_, fetched, valid.resolves _ _ fetched⟩,
    bounds.turn_ne_badReference valid⟩

end

def openingAttempt : Attempt where
  program :=
    { instructions := #[.branch ⟨0⟩, .accept, .beginCapture 1,
        .matchAny .forward false false, .fail]
      targets := #[some 2]
      captureCount := 2 }
  subject := .whole (.byUnits #[0x61, 0x62]) .codePoint
  start := 0
  budget := 0

open scoped Repertoire in
theorem openingAttempt_in_bounds :
    ∃ state, openingAttempt.Reaches (openingAttempt.setOut {}) state ∧
      openingAttempt.Bounds state ∧ state.address = 4 ∧ state.position = 1 ∧
        state.saves.points = [⟨1, 0, 0, false⟩] := by
  let saves : SaveStack := .push .empty ⟨1, 0, 0, false⟩
  let journal := (Journal.new 2 0).setStart 1 (some 0)
  have branched : openingAttempt.Next (openingAttempt.setOut {})
      ⟨2, 0, 1, saves, .new 2 0⟩ := rfl
  have opened : openingAttempt.Next ⟨2, 0, 1, saves, .new 2 0⟩ ⟨3, 0, 2, saves, journal⟩ :=
    rfl
  have passed : openingAttempt.Next ⟨3, 0, 2, saves, journal⟩ ⟨4, 1, 3, saves, journal⟩ := by
    cbv
  have path := (branched.reaches.tail opened).tail passed
  have admitted : openingAttempt.Admitted := ⟨rfl, rfl, fun clusters => by cases clusters⟩
  exact ⟨_, path, (reached_in_bounds (by cbv) admitted {} path).1, rfl, rfl, rfl⟩

end Attempt

end RegexMachine
