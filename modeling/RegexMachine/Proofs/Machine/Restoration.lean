import RegexMachine.Proofs.Machine.Bounds
import RegexMachine.Rune.Repertoire

/-! # Returning to a save point

A save point remembers nothing but a height of the journal, and yet returning
to it brings back all registers as they were when it was pushed. As long as a
save point is on the stack, the journal is never rolled back below its height:
whatever rolls it back has been pushed later, and heights only grow towards the
top of the stack. -/

namespace RegexMachine

def SaveStack.Bears (stack below : SaveStack) (save : SavePoint) : Prop :=
  ∃ above, stack.points = above ++ save :: below.points

theorem SaveStack.Bears.mem {stack below : SaveStack} {save : SavePoint}
    (bears : stack.Bears below save) : save ∈ stack.points := by
  rcases bears with ⟨above, shape⟩
  rw [shape]
  exact List.mem_append_right above List.mem_cons_self

namespace Instruction

/-- Executed in the state, the instruction pushes a save point, and does so when
the machine has come to the state `moment`. -/
inductive Pushes (program : Program) (state : State) :
    Instruction → (moment : State) → (resume : Nat) → (marker : Bool) → Prop
  | branch (target : Label) :
      Pushes program state (.branch target) state state.address false
  | save {target goal} (bound : program.target? target = some goal) :
      Pushes program state (.save target) state goal true
  | more {min max counter exit goal} (bound : program.target? exit = some goal) :
      Pushes program state (.quantify .greedy min max counter exit) state goal false
  | less (min max : UInt32) (counter : UInt16) (exit : Label) :
      Pushes program state (.quantify .lazy min max counter exit)
        (state.beginIteration counter) state.address false

variable {program : Program} {subject : Subject} {state next moment : State}
  {instruction : Instruction} {resume : Nat} {marker : Bool}

theorem Pushes.saves_eq (pushes : instruction.Pushes program state moment resume marker) :
    moment.saves = state.saves := by
  cases pushes <;> rfl

variable [CharacterData]

theorem Proceeds.saves (proceeds : instruction.Proceeds program subject state next) :
    (∃ above, state.saves.points = above ++ next.saves.points) ∨
      ∃ moment resume marker, instruction.Pushes program state moment resume marker ∧
        next.saves = (moment.push resume marker).saves ∧
          next.journal.Extends moment.journal := by
  cases proceeds with
  | branch => exact .inr ⟨_, _, _, .branch _, rfl, .refl _⟩
  | save bound => exact .inr ⟨_, _, _, .save bound, rfl, .refl _⟩
  | more bound => exact .inr ⟨_, _, _, .more bound, rfl, .write _ _ _⟩
  | less => exact .inr ⟨_, _, _, .less _ _ _ _, rfl, .refl _⟩
  | clear popped => exact .inl ⟨[_], SaveStack.points_of_pop? popped⟩
  | @commit _ _ save _ _ found =>
      obtain ⟨above, shape, -⟩ := SaveStack.points_of_commitTo? found
      refine .inl ⟨above ++ [save], ?_⟩
      rw [shape, List.append_assoc]
      rfl
  | _ => exact .inl ⟨[], rfl⟩

end Instruction

namespace Attempt

variable {attempt : Attempt} {origin state next pusher moment : State} {save : SavePoint}
  {below : SaveStack}

/-! ## One turn -/

theorem Contains.extends_commit (contains : attempt.Contains state) {above : List SavePoint}
    {marked : SavePoint} {rest : SaveStack}
    (shape : state.saves.points = above ++ marked :: rest.points)
    (member : save ∈ rest.points) {older : Journal} (height : save.height = older.height)
    (extension : state.journal.Extends older) :
    (state.journal.rollBack marked.height).Extends older := by
  apply extension.rollBack
  rw [← height]
  exact contains.height_le shape save member

section

variable [CharacterData]

/-- A turn takes no change back that was there when a save point was pushed
that is still on the stack. -/
theorem Next.extends (step : attempt.Next state next) (valid : attempt.program.Valid)
    (bounds : attempt.Bounds state) (member : save ∈ next.saves.points) {older : Journal}
    (height : save.height = older.height) (extension : state.journal.Extends older) :
    next.journal.Extends older := by
  have contains : attempt.Contains state.counted := bounds.toContains.goTo _ _
  obtain ⟨instruction, found, resolves, proceeds | back⟩ :=
    step.cases valid bounds.sized bounds.address
  · cases proceeds with
    | start counter =>
        exact (Journal.Extends.write _ _ _).trans ((Journal.Extends.write _ _ _).trans extension)
    | demand => exact (Journal.Extends.write _ _ _).trans extension
    | more => exact (Journal.Extends.write _ _ _).trans extension
    | less => exact (Journal.Extends.write _ _ _).trans extension
    | again => exact (Journal.Extends.write _ _ _).trans extension
    | setStart => exact (Journal.Extends.write _ _ _).trans extension
    | setEnd => exact (Journal.Extends.write _ _ _).trans extension
    | commit bound committed keep =>
        obtain ⟨above, shape, -⟩ := SaveStack.points_of_commitTo? committed
        cases keep with
        | true => exact extension
        | false => exact contains.extends_commit shape member height extension
    | _ => exact extension
  · obtain ⟨popped, rest, shape, rfl⟩ := State.backtrack?_eq_some back
    have newest : state.counted.saves.points = [] ++ popped :: rest.points := shape
    exact contains.extends_commit newest member height extension

theorem Next.saves (step : attempt.Next state next) (valid : attempt.program.Valid)
    (bounds : attempt.Bounds state) :
    (∃ above, state.saves.points = above ++ next.saves.points) ∨
      ∃ instruction moment resume marker,
        attempt.program.instructions[state.address]? = some instruction ∧
          instruction.Pushes attempt.program state.counted moment resume marker ∧
            next.saves = (moment.push resume marker).saves ∧
              next.journal.Extends moment.journal := by
  obtain ⟨instruction, found, resolves, proceeds | back⟩ :=
    step.cases valid bounds.sized bounds.address
  · rcases proceeds.saves with shrunk | ⟨moment, resume, marker, pushes, grown⟩
    · exact .inl shrunk
    · exact .inr ⟨instruction, moment, resume, marker, found, pushes, grown⟩
  · obtain ⟨popped, rest, shape, rfl⟩ := State.backtrack?_eq_some back
    exact .inl ⟨[popped], shape⟩

/-! ## Whole runs -/

def Keeps (attempt : Attempt) (below : SaveStack) (save : SavePoint) :
    State → State → Prop :=
  Relation.ReflTransGen fun state next =>
    attempt.Next state next ∧ next.saves.Bears below save

theorem Keeps.reaches (kept : attempt.Keeps below save state next) :
    attempt.Reaches state next :=
  Relation.ReflTransGen.mono (fun _ _ => And.left) _ _ kept

/-- The save point was pushed in the turn of `pusher`, when the machine had come
to the state `moment`, and has been on the stack ever since. -/
structure Pushed (attempt : Attempt) (origin pusher moment : State) (save : SavePoint)
    (state : State) : Prop where
  reached : attempt.Reaches origin pusher
  instruction : ∃ instruction,
    attempt.program.instructions[pusher.address]? = some instruction ∧
      instruction.Pushes attempt.program pusher.counted moment save.resume save.marker
  position : save.position = moment.position
  height : save.height = moment.journal.height
  stays : ∃ pushed, attempt.Next pusher pushed ∧ pushed.saves = moment.saves.push save ∧
    attempt.Keeps moment.saves save pushed state

/-- Every save point on the stack is still what it was when it was pushed, and
the journal goes back to that moment. -/
def Remembers (attempt : Attempt) (origin state : State) : Prop :=
  ∀ save below, state.saves.Bears below save → ∃ pusher moment,
    attempt.Pushed origin pusher moment save state ∧ moment.saves = below ∧
      state.journal.Extends moment.journal

theorem Pushed.turn (pushed : attempt.Pushed origin pusher moment save state)
    (step : attempt.Next state next) (bears : next.saves.Bears moment.saves save) :
    attempt.Pushed origin pusher moment save next := by
  obtain ⟨first, pushing, saves, kept⟩ := pushed.stays
  exact { pushed with stays := ⟨first, pushing, saves, kept.tail ⟨step, bears⟩⟩ }

theorem remembers_setOut (attempt : Attempt) (left : State) :
    attempt.Remembers (attempt.setOut left) (attempt.setOut left) := by
  intro save below bears
  obtain ⟨above, shape⟩ := bears
  cases above <;> cases shape

theorem Remembers.turn (remembers : attempt.Remembers origin state)
    (valid : attempt.program.Valid) (bounds : attempt.Bounds state)
    (reached : attempt.Reaches origin state) (step : attempt.Next state next) :
    attempt.Remembers origin next := by
  intro save below bears
  have member := bears.mem
  -- What was on the stack before the turn is remembered from there.
  have older (known : state.saves.Bears below save) : ∃ pusher moment,
      attempt.Pushed origin pusher moment save next ∧ moment.saves = below ∧
        next.journal.Extends moment.journal := by
    obtain ⟨pusher, moment, pushed, rfl, extension⟩ := remembers save below known
    exact ⟨pusher, moment, pushed.turn step bears, rfl,
      step.extends valid bounds member pushed.height extension⟩
  obtain ⟨above, shape⟩ := bears
  rcases step.saves valid bounds with
    ⟨popped, shrunk⟩ | ⟨instruction, moment, resume, marker, found, pushes, grown, extension⟩
  · apply older
    exact ⟨popped ++ above, by rw [shrunk, shape, List.append_assoc]⟩
  · have points : next.saves.points =
        ⟨resume, moment.position, moment.journal.height, marker⟩ :: moment.saves.points := by
      rw [grown]
      rfl
    rw [points] at shape
    cases above with
    | nil =>
        simp only [List.nil_append, List.cons.injEq] at shape
        obtain ⟨rfl, rest⟩ := shape
        obtain rfl := SaveStack.eq_of_points rest
        exact ⟨state, moment, ⟨reached, ⟨instruction, found, pushes⟩, rfl, rfl,
          ⟨next, step, grown, .refl⟩⟩, rfl, extension⟩
    | cons newest above =>
        apply older
        rw [List.cons_append, List.cons.injEq, pushes.saves_eq] at shape
        exact ⟨above, shape.2⟩

theorem Remembers.reaches (valid : attempt.program.Valid) (bounds : attempt.Bounds origin)
    (remembers : attempt.Remembers origin origin) (path : attempt.Reaches origin state) :
    attempt.Remembers origin state := by
  induction path with
  | refl => exact remembers
  | tail path step induction =>
      exact induction.turn valid (bounds.reaches valid path) path step

def Backtracks (attempt : Attempt) (state next : State) : Prop :=
  attempt.exhausted state = false ∧
    ∃ instruction failed, attempt.program.instructions[state.address]? = some instruction ∧
      instruction.step attempt.program attempt.subject state.counted = .fail failed ∧
        failed.backtrack? = some next

theorem Backtracks.backtrack?_eq (backtracks : attempt.Backtracks state next)
    (valid : attempt.program.Valid) (bounds : attempt.Bounds state) :
    state.counted.backtrack? = some next := by
  obtain ⟨-, instruction, failed, found, fails, back⟩ := backtracks
  have sized : state.counted.journal.Sized attempt.program.captureCount
      attempt.program.counterCount := bounds.sized
  have allows : instruction.Allows attempt.program attempt.subject state.counted
      (instruction.step attempt.program attempt.subject state.counted) :=
    Instruction.allows_step (valid.resolves _ _ found) sized
  rw [fails] at allows
  cases allows
  exact back

/-- Whenever an attempt at a validated program returns to a save point, it is
again where it was when that save point was pushed, with all registers as they
were then and the same save points below, whatever it has done in between. -/
theorem backtrack_restores (validated : attempt.program.validate = .ok ())
    (admitted : attempt.Admitted) (left : State)
    (path : attempt.Reaches (attempt.setOut left) state)
    (backtracks : attempt.Backtracks state next) :
    ∃ save pusher moment, state.saves.points = save :: next.saves.points ∧
      attempt.Pushed (attempt.setOut left) pusher moment save state ∧
        attempt.Next state next ∧ next.address = save.resume ∧
          next.position = moment.position ∧ next.journal = moment.journal ∧
            next.saves = moment.saves := by
  have valid := Program.validate_eq_ok_iff.mp validated
  have bounds := (Bounds.setOut valid admitted left).reaches valid path
  have remembers := (remembers_setOut attempt left).reaches valid
    (.setOut valid admitted left) path
  have back := backtracks.backtrack?_eq valid bounds
  have step : attempt.Next state next := by
    obtain ⟨unexhausted, instruction, failed, found, fails, returns⟩ := backtracks
    rw [Next, turn_of_fetched unexhausted found, fails, resolve, returns]
  obtain ⟨save, rest, shape, rfl⟩ := State.backtrack?_eq_some back
  obtain ⟨pusher, moment, pushed, saves, extension⟩ := remembers save rest ⟨[], shape⟩
  refine ⟨save, pusher, moment, shape, pushed, step, rfl, pushed.position, ?_, saves.symm⟩
  change state.journal.rollBack save.height = moment.journal
  rw [pushed.height]
  exact extension

def lookingAttempt : Attempt where
  program :=
    { instructions := #[.branch ⟨0⟩, .accept, .beginCapture 1, .save ⟨1⟩,
        .matchAny .forward false false, .endCapture 1, .clearThrough ⟨1⟩ true, .fail, .fail]
      targets := #[some 2, some 8]
      captureCount := 2 }
  subject := .whole (.byUnits #[0x61]) .codePoint
  start := 0
  budget := 0

end

open scoped Repertoire in
theorem lookingAttempt_restores :
    ∃ state next : State, lookingAttempt.Backtracks state next ∧
      state.journal.spanOf 1 = some ⟨0, 1⟩ ∧ next.journal.spanOf 1 = none ∧
      ∃ save pusher moment,
        lookingAttempt.Pushed (lookingAttempt.setOut {}) pusher moment save state ∧
          next.position = moment.position ∧ next.journal = moment.journal ∧
            next.saves = moment.saves := by
  let outer : SaveStack := .push .empty ⟨1, 0, 0, false⟩
  let inner : SaveStack := outer.push ⟨8, 0, 1, true⟩
  let opened := (Journal.new 2 0).setStart 1 (some 0)
  let closed := opened.setEnd 1 (some 1)
  have branched : lookingAttempt.Next (lookingAttempt.setOut {})
      ⟨2, 0, 1, outer, .new 2 0⟩ := rfl
  have began : lookingAttempt.Next ⟨2, 0, 1, outer, .new 2 0⟩ ⟨3, 0, 2, outer, opened⟩ := rfl
  have saved : lookingAttempt.Next ⟨3, 0, 2, outer, opened⟩ ⟨4, 0, 3, inner, opened⟩ := rfl
  have passed : lookingAttempt.Next ⟨4, 0, 3, inner, opened⟩ ⟨5, 1, 4, inner, opened⟩ := by
    cbv
  have ended : lookingAttempt.Next ⟨5, 1, 4, inner, opened⟩ ⟨6, 1, 5, inner, closed⟩ := rfl
  have committed : lookingAttempt.Next ⟨6, 1, 5, inner, closed⟩ ⟨7, 0, 6, outer, closed⟩ :=
    rfl
  have path := ((((branched.reaches.tail began).tail saved).tail passed).tail ended).tail
    committed
  have backtracks : lookingAttempt.Backtracks ⟨7, 0, 6, outer, closed⟩
      ⟨1, 0, 7, .empty, .new 2 0⟩ := ⟨rfl, .fail, _, rfl, rfl, rfl⟩
  have admitted : lookingAttempt.Admitted := ⟨rfl, rfl, fun clusters => by cases clusters⟩
  obtain ⟨save, pusher, moment, -, pushed, -, -, position, journal, saves⟩ :=
    backtrack_restores (by cbv) admitted {} path backtracks
  exact ⟨_, _, backtracks, rfl, rfl, save, pusher, moment, pushed, position, journal, saves⟩

end Attempt

end RegexMachine
