import RegexMachine.Proofs.Capture.Contents
import RegexMachine.Proofs.Machine.Transitions
import RegexMachine.Proofs.Pattern.Outcomes

/-! # What a stretch of a program yields

A stretch of a program is entered with some stack and journal. It either falls
back, which leaves the stack as it was and lets the journal be rolled back to
what it was, or it reaches its exit with save points of its own on top of the
stack. Falling back to these makes the stretch go on, so in the end it yields
a list of outcomes: those with which it reaches its exit, in their order. -/

namespace RegexMachine

/-- The newer journal goes back to the older one by taking changes back, and
the counters below `floor` are the same in both. -/
structure Journal.Follows (newer older : Journal) (floor : Nat) : Prop where
  extension : newer.Extends older
  counts : ∀ counter < floor, newer.count counter = older.count counter
  origins : ∀ counter < floor, newer.origin counter = older.origin counter

namespace Journal.Follows

variable {newest newer older : Journal} {floor low : Nat}

theorem refl (journal : Journal) (floor : Nat) : journal.Follows journal floor :=
  ⟨.refl journal, fun _ _ => rfl, fun _ _ => rfl⟩

theorem trans (upper : newest.Follows newer floor) (lower : newer.Follows older floor) :
    newest.Follows older floor where
  extension := upper.extension.trans lower.extension
  counts counter below := (upper.counts counter below).trans (lower.counts counter below)
  origins counter below := (upper.origins counter below).trans (lower.origins counter below)

theorem lower (follows : newer.Follows older floor) (ordered : low ≤ floor) :
    newer.Follows older low :=
  ⟨follows.extension, fun counter below => follows.counts counter (by omega),
    fun counter below => follows.origins counter (by omega)⟩

theorem write (journal : Journal) {register : Register} (fits : register.Fits journal.groups)
    (content : Option Nat)
    (spares : ∀ counter < floor, register ≠ .count counter ∧ register ≠ .origin counter) :
    (journal.write register content).Follows journal floor :=
  ⟨.write journal register content,
    fun counter below => Registers.read_write_other fits (Register.fits_count _ _)
      (spares counter below).1 _,
    fun counter below => Registers.read_write_other fits (Register.fits_origin _ _)
      (spares counter below).2 _⟩

end Journal.Follows

def SaveStack.Above (upper lower : SaveStack) : Prop :=
  ∃ own, upper.points = own ++ lower.points ∧ ∀ save ∈ own, save.marker = false

namespace SaveStack.Above

theorem refl (stack : SaveStack) : stack.Above stack := ⟨[], rfl, nofun⟩

theorem trans {highest upper lower : SaveStack} (second : highest.Above upper)
    (first : upper.Above lower) : highest.Above lower := by
  rcases second with ⟨own, shape, unmarked⟩
  rcases first with ⟨earlier, lowerShape, earlierUnmarked⟩
  refine ⟨own ++ earlier, by rw [shape, lowerShape, List.append_assoc], ?_⟩
  exact List.forall_mem_append.mpr ⟨unmarked, earlierUnmarked⟩

theorem push (stack : SaveStack) {save : SavePoint} (unmarked : save.marker = false) :
    (stack.push save).Above stack :=
  ⟨[save], rfl, by simpa using unmarked⟩

theorem commitTo? {upper lower : SaveStack} {save : SavePoint}
    (above : upper.Above (lower.push save)) (marked : save.marker = true) :
    upper.commitTo? save.resume = some (save, lower) := by
  rcases above with ⟨own, shape, unmarked⟩
  rcases upper with ⟨points, size, size_eq⟩
  simp only at shape
  subst shape
  induction own generalizing size with
  | nil =>
      have same : (⟨[] ++ (lower.push save).points, size, size_eq⟩ : SaveStack) =
          lower.push save := eq_of_points rfl
      rw [same, commitTo?_push, marked]
      simp
  | cons newest own induction =>
      rcases List.forall_mem_cons.mp unmarked with ⟨newestUnmarked, rest⟩
      have below : size - 1 = (own ++ (lower.push save).points).length := by
        simp [size_eq]
      have same : (⟨newest :: own ++ (lower.push save).points, size, size_eq⟩ : SaveStack) =
          SaveStack.push ⟨own ++ (lower.push save).points, size - 1, below⟩ newest :=
        eq_of_points rfl
      rw [same, commitTo?_push, newestUnmarked]
      exact induction rest _ below

end SaveStack.Above

def State.outcome (state : State) : Outcome where
  position := state.position
  starts group := state.journal.held (.groupStart group)
  ends group := state.journal.held (.groupEnd group)

namespace Attempt

variable {attempt : Attempt} {exit middle floor low : Nat} {base : SaveStack}
  {kept older : Journal} {state next : State} {outcomes more : List Outcome}

/-! ## Falling back -/

variable [CharacterData]

/-- The state comes to a failure with the stack `base`, from which the journal
`kept` can be brought back. -/
def FallsBack (attempt : Attempt) (base : SaveStack) (kept : Journal) (state : State) :
    Prop :=
  ∃ last failed, attempt.Reaches state last ∧
    attempt.turn last = resolve (.fail failed) ∧
      failed.saves = base ∧ failed.journal.Extends kept

namespace FallsBack

theorem reach (path : attempt.Reaches state next)
    (falls : attempt.FallsBack base kept next) : attempt.FallsBack base kept state := by
  rcases falls with ⟨last, failed, onward, rest⟩
  exact ⟨last, failed, path.trans onward, rest⟩

theorem weaken (falls : attempt.FallsBack base kept state)
    (extension : kept.Extends older) : attempt.FallsBack base older state := by
  rcases falls with ⟨last, failed, onward, turned, saves, journal⟩
  exact ⟨last, failed, onward, turned, saves, journal.trans extension⟩

theorem resume {save : SavePoint} (falls : attempt.FallsBack (base.push save) kept state)
    (extension : kept.Extends older) (height : save.height = older.height) :
    ∃ later, attempt.Reaches state later ∧ later.address = save.resume ∧
      later.position = save.position ∧ later.saves = base ∧ later.journal = older := by
  rcases falls with ⟨last, failed, onward, turned, saves, journal⟩
  have back : failed.backtrack? = some
      { failed with
        address := save.resume
        position := save.position
        saves := base
        journal := failed.journal.rollBack save.height } := by
    simp only [State.backtrack?, saves, SaveStack.pop?_push]
  rw [resolve, back] at turned
  refine ⟨_, onward.tail turned, rfl, rfl, rfl, ?_⟩
  rw [height]
  exact journal.trans extension

end FallsBack

/-! ## Yielding -/

/-- The state is at the exit of a stretch that was entered with the stack
`base` and the journal `kept`. -/
structure Arrived (exit floor : Nat) (base : SaveStack) (kept : Journal) (here : State) :
    Prop where
  address : here.address = exit
  follows : here.journal.Follows kept floor
  stack : here.saves.Above base

/-- Outcomes with which the state reaches the exit, each but the first after
falling back to what the one before has left. -/
inductive Yields (attempt : Attempt) (exit floor : Nat) (base : SaveStack)
    (kept : Journal) : State → List Outcome → Prop
  | none {state : State} (falls : attempt.FallsBack base kept state) :
      Yields attempt exit floor base kept state []
  | found {state here : State} {rest : List Outcome}
      (path : attempt.Reaches state here)
      (arrived : Arrived exit floor base kept here)
      (retry : ∀ later, attempt.FallsBack here.saves here.journal later →
        Yields attempt exit floor base kept later rest) :
      Yields attempt exit floor base kept state (here.outcome :: rest)

namespace Yields

theorem reach (path : attempt.Reaches state next)
    (yields : attempt.Yields exit floor base kept next outcomes) :
    attempt.Yields exit floor base kept state outcomes := by
  cases yields with
  | none falls => exact .none (falls.reach path)
  | found onward arrived retry => exact .found (path.trans onward) arrived retry

theorem here (address : state.address = exit) (saves : state.saves = base)
    (journal : state.journal = kept) :
    attempt.Yields exit floor base kept state [state.outcome] := by
  subst saves journal
  exact .found .refl ⟨address, .refl _ _, .refl _⟩ fun _ falls => .none falls

theorem append {saves : SaveStack} {journal : Journal}
    (first : attempt.Yields exit floor saves journal state outcomes)
    (stack : saves.Above base) (follows : journal.Follows kept floor)
    (second : ∀ later, attempt.FallsBack saves journal later →
      attempt.Yields exit floor base kept later more) :
    attempt.Yields exit floor base kept state (outcomes ++ more) := by
  induction first with
  | none falls => exact second _ falls
  | found path arrived _ induction =>
      exact .found path ⟨arrived.address, arrived.follows.trans follows,
        arrived.stack.trans stack⟩ induction

theorem weaken (yields : attempt.Yields exit floor base kept state outcomes)
    (follows : kept.Follows older floor) :
    attempt.Yields exit floor base older state outcomes := by
  rw [← List.append_nil outcomes]
  exact yields.append (.refl base) follows fun _ falls =>
    .none (falls.weaken follows.extension)

/-- What is yielded above one save point that is not marked, and then what is
yielded where it resumes. -/
theorem orElse {save : SavePoint} {journal : Journal}
    (first : attempt.Yields exit floor (base.push save) journal state outcomes)
    (unmarked : save.marker = false) (follows : journal.Follows kept floor)
    (height : save.height = kept.height)
    (second : ∀ later, later.address = save.resume → later.position = save.position →
      later.saves = base → later.journal = kept →
        attempt.Yields exit floor base kept later more) :
    attempt.Yields exit floor base kept state (outcomes ++ more) := by
  apply first.append (.push base unmarked) follows
  intro failing falls
  rcases falls.resume follows.extension height with
    ⟨later, path, address, position, saves, journal⟩
  exact (second later address position saves journal).reach path

/-- If the exit of one stretch is the entry of another, the second one goes on
from every outcome of the first. -/
theorem bind {second : Matcher}
    (first : attempt.Yields middle floor base kept state outcomes) (ordered : low ≤ floor)
    (following : ∀ here, Arrived middle floor base kept here →
      attempt.Yields exit low here.saves here.journal here (second here.outcome)) :
    attempt.Yields exit low base kept state (outcomes.flatMap second) := by
  induction first with
  | none falls => exact .none falls
  | @found state here rest path arrived _ induction =>
      rw [List.flatMap_cons]
      exact ((following here arrived).append arrived.stack
        (arrived.follows.lower ordered) induction).reach path

theorem lower (yields : attempt.Yields exit floor base kept state outcomes)
    (ordered : low ≤ floor) : attempt.Yields exit low base kept state outcomes := by
  have following : attempt.Yields exit low base kept state
      (outcomes.flatMap fun here => [here]) :=
    yields.bind ordered fun here arrived => .here arrived.address rfl rfl
  rwa [List.flatMap_singleton'] at following

end Yields

/-! ## Realizing a matcher -/

/-- Entered at `first`, the program yields what the matcher leads to. -/
def Realizes (attempt : Attempt) (matcher : Matcher) (first exit floor : Nat) : Prop :=
  ∀ state : State, state.address = first →
    state.journal.Sized attempt.program.captureCount attempt.program.counterCount →
      attempt.Yields exit floor state.saves state.journal state (matcher state.outcome)

end Attempt

end RegexMachine
