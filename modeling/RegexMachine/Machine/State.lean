import RegexMachine.Capture.Journal

/-! # Machine states

A state holds the registers of the machine and the stack of save points to
which it can return. A save point remembers the height of the journal instead
of the registers; rolling the journal back brings them back. -/

namespace RegexMachine

structure SavePoint where
  /-- The address to go on at. -/
  resume : Nat
  position : Nat
  height : Nat
  /-- Whether the save point marks where a lookaround began. -/
  marker : Bool
deriving DecidableEq, Repr

structure SaveStack where
  points : List SavePoint
  /-- The number of save points, kept so that it need not be counted. -/
  size : Nat
  size_eq : size = points.length := by rfl
deriving DecidableEq, Repr

namespace SaveStack

theorem size_nil : 0 = ([] : List SavePoint).length := rfl

def empty : SaveStack where
  points := []
  size := 0
  size_eq := size_nil

def push (stack : SaveStack) (save : SavePoint) : SaveStack where
  points := save :: stack.points
  size := stack.size + 1
  size_eq := by simp [stack.size_eq]

def pop? : SaveStack → Option (SavePoint × SaveStack)
  | ⟨[], _, _⟩ => none
  | ⟨save :: rest, size, size_eq⟩ =>
      some (save, ⟨rest, size - 1, by simp [size_eq]⟩)

/-- The newest marked one of so many save points that resumes at `goal`, and
the stack below it. -/
def commitAmong? (goal : Nat) : (points : List SavePoint) → (size : Nat) →
    size = points.length → Option (SavePoint × SaveStack)
  | [], _, _ => none
  | save :: rest, size, size_eq =>
      have below : size - 1 = rest.length := by simp [size_eq]
      if save.marker && save.resume == goal then some (save, ⟨rest, size - 1, below⟩)
      else commitAmong? goal rest (size - 1) below

def commitTo? (stack : SaveStack) (goal : Nat) : Option (SavePoint × SaveStack) :=
  commitAmong? goal stack.points stack.size stack.size_eq

theorem eq_of_points {left right : SaveStack} (same : left.points = right.points) :
    left = right := by
  rcases left with ⟨points, size, size_eq⟩
  rcases right with ⟨_, _, other_eq⟩
  cases same
  cases size_eq
  cases other_eq
  rfl

theorem pop?_empty : empty.pop? = none := rfl

theorem pop?_push (stack : SaveStack) (save : SavePoint) :
    (stack.push save).pop? = some (save, stack) := rfl

theorem commitTo?_push (stack : SaveStack) (save : SavePoint) (goal : Nat) :
    (stack.push save).commitTo? goal =
      if save.marker && save.resume == goal then some (save, stack)
      else stack.commitTo? goal := rfl

end SaveStack

structure State where
  address : Nat := 0
  position : Nat := 0
  steps : Nat := 0
  saves : SaveStack := .empty
  journal : Journal := .new 0 0
deriving DecidableEq, Repr

instance : Inhabited State := ⟨{}⟩

namespace State

def push (state : State) (resume : Nat) (marker : Bool) : State :=
  let save : SavePoint :=
    ⟨resume, state.position, state.journal.height, marker⟩
  { state with saves := state.saves.push save }

def backtrack? (state : State) : Option State :=
  match state.saves.pop? with
  | none => none
  | some (save, rest) => some
      { state with
        address := save.resume
        position := save.position
        saves := rest
        journal := state.journal.rollBack save.height }

end State

end RegexMachine
