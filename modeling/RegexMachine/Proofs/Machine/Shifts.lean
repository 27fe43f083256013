import RegexMachine.Proofs.Capture.Rollback
import RegexMachine.Machine.Attempt

/-! # Moving a state along its text

Every position that a state holds can be moved along by one distance: its own, those
of its save points, and those in its registers and in the journal of their changes.
Addresses, counts and heights are no positions and stay. What the machine does
without looking at the text it does to the moved state in the same way. -/

namespace RegexMachine

variable (distance : Nat)

/-! ## Captures -/

/-- What a register holds, moved along if it is a position. -/
def Register.shift (distance : Nat) (content : Option Nat) : Register → Option Nat
  | .count _ => content
  | .groupStart _ | .groupEnd _ | .origin _ => content.map (distance + ·)

/-- What a slot holds, moved along if it is not the number of iterations of a counter. -/
def Registers.shiftAt (groups distance slot : Nat) (content : Option Nat) : Option Nat :=
  if groups * 2 ≤ slot ∧ slot % 2 = 0 then content else content.map (distance + ·)

theorem Register.shiftAt_slot {register : Register} {groups : Nat}
    (fits : register.Fits groups) (content : Option Nat) :
    Registers.shiftAt groups distance (register.slot groups) content =
      register.shift distance content := by
  rw [Registers.shiftAt]
  cases register with
  | groupStart group =>
      have inside : group < groups := fits
      exact if_neg (by simp only [slot]; omega)
  | groupEnd group => exact if_neg (by simp only [slot]; omega)
  | count counter => exact if_pos (by simp only [slot]; omega)
  | origin counter => exact if_neg (by simp only [slot]; omega)

namespace Registers

def shift (registers : Registers) (distance : Nat) : Registers :=
  { registers with slots := registers.slots.mapIdx (shiftAt registers.groups distance) }

theorem shiftAt_none (groups slot : Nat) : shiftAt groups distance slot none = none := by
  unfold shiftAt
  split <;> rfl

theorem shift_ofSize (groups counters : Nat) :
    (ofSize groups counters).shift distance = ofSize groups counters := by
  have slots : (Array.replicate ((groups + counters) * 2) none).mapIdx
      (shiftAt groups distance) = Array.replicate ((groups + counters) * 2) none := by
    apply Array.ext
    · simp
    · intro slot _ _
      rw [Array.getElem_mapIdx, Array.getElem_replicate, shiftAt_none]
  exact congrArg (Registers.mk groups) slots

theorem get_shift (registers : Registers) (slot : Nat) :
    (registers.shift distance).get slot =
      shiftAt registers.groups distance slot (registers.get slot) := by
  rw [get, get, shift, Array.getElem?_mapIdx]
  cases registers.slots[slot]? with
  | none => exact (shiftAt_none distance registers.groups slot).symm
  | some content => rfl

theorem set_shift (registers : Registers) (slot : Nat) (content : Option Nat) :
    (registers.shift distance).set slot (shiftAt registers.groups distance slot content) =
      (registers.set slot content).shift distance := by
  have slots : (registers.slots.mapIdx (shiftAt registers.groups distance)).setIfInBounds slot
      (shiftAt registers.groups distance slot content) =
        (registers.slots.setIfInBounds slot content).mapIdx
          (shiftAt registers.groups distance) := by
    apply Array.ext
    · simp
    · intro place within inside
      rw [Array.size_setIfInBounds] at within
      rw [Array.getElem_setIfInBounds within, Array.getElem_mapIdx, Array.getElem_mapIdx,
        Array.getElem_setIfInBounds]
      split
      · next here => rw [here]
      · rfl
  exact congrArg (Registers.mk registers.groups) slots

theorem read_shift (registers : Registers) {register : Register}
    (fits : register.Fits registers.groups) :
    (registers.shift distance).read register =
      register.shift distance (registers.read register) :=
  (registers.get_shift distance _).trans (Register.shiftAt_slot distance fits _)

theorem write_shift (registers : Registers) {register : Register}
    (fits : register.Fits registers.groups) (content : Option Nat) :
    (registers.shift distance).write register (register.shift distance content) =
      (registers.write register content).shift distance := by
  rw [← Register.shiftAt_slot distance fits]
  exact registers.set_shift distance _ content

end Registers

namespace Change

def shift (change : Change) (groups distance : Nat) : Change :=
  { change with replaced := Registers.shiftAt groups distance change.slot change.replaced }

theorem takeBack_shift (count : Nat) (changes : List Change) (registers : Registers) :
    takeBack count (changes.map (·.shift registers.groups distance))
        (registers.shift distance) =
      ((takeBack count changes registers).1.map (·.shift registers.groups distance),
        (takeBack count changes registers).2.shift distance) := by
  induction count generalizing changes registers with
  | zero => rfl
  | succ count induction =>
      cases changes with
      | nil => rfl
      | cons change older =>
          rw [List.map_cons, takeBack, takeBack, shift, Registers.set_shift]
          exact induction older (registers.set change.slot change.replaced)

end Change

def Span.shift (span : Span) (distance : Nat) : Span :=
  ⟨distance + span.first, distance + span.last⟩

def CaptureTable.shift (table : CaptureTable) (distance : Nat) : CaptureTable :=
  ⟨table.groups.map (·.map (·.shift distance))⟩

def MatchResult.shift (result : MatchResult) (distance : Nat) : MatchResult :=
  { result with captures := result.captures.shift distance }

theorem MatchResult.shift_empty (status : MatchStatus) (steps : Nat) :
    (MatchResult.mk status .empty steps).shift distance = ⟨status, .empty, steps⟩ :=
  congrArg (fun groups => MatchResult.mk status ⟨groups⟩ steps) Array.map_empty

theorem CaptureTable.assign_shift (table : CaptureTable) (group : Nat) (span : Option Span) :
    (table.shift distance).assign group (span.map (·.shift distance)) =
      (table.assign group span).map (·.shift distance) := by
  simp only [assign, shift, Array.size_map]
  split
  · simp only [← Array.map_setIfInBounds]
    rfl
  · rfl

namespace Journal

def shift (journal : Journal) (distance : Nat) : Journal where
  registers := journal.registers.shift distance
  changes := journal.changes.map (·.shift journal.groups distance)
  height := journal.height
  height_eq := by rw [List.length_map, journal.height_eq]

variable (journal : Journal)

theorem groups_shift : (journal.shift distance).groups = journal.groups := rfl

theorem counters_shift : (journal.shift distance).counters = journal.counters := by
  simp only [counters, Registers.counters, shift, Registers.shift, Array.size_mapIdx]

theorem count_shift (counter : Nat) :
    (journal.shift distance).count counter = journal.count counter :=
  journal.registers.read_shift distance (Register.fits_count _ _)

theorem origin_shift (counter : Nat) :
    (journal.shift distance).origin counter = (journal.origin counter).map (distance + ·) :=
  journal.registers.read_shift distance (Register.fits_origin _ _)

theorem write_shift {register : Register} (fits : register.Fits journal.groups)
    (content : Option Nat) :
    (journal.shift distance).write register (register.shift distance content) =
      (journal.write register content).shift distance := by
  apply eq_of_parts
  · exact journal.registers.write_shift distance fits content
  · exact congrArg
      (fun replaced => ⟨register.slot journal.groups, replaced⟩ ::
        (journal.shift distance).changes)
      (journal.registers.get_shift distance _)

theorem startCounter_shift (counter : Nat) :
    (journal.shift distance).startCounter counter =
      (journal.startCounter counter).shift distance := by
  have zeroed := journal.write_shift distance (Register.fits_count _ counter) (some 0)
  have emptied := write_shift distance (journal.write (.count counter) (some 0))
    (Register.fits_origin _ counter) none
  rw [← zeroed] at emptied
  exact emptied

theorem rollBack_shift (height : Nat) :
    (journal.shift distance).rollBack height = (journal.rollBack height).shift distance := by
  have back := Change.takeBack_shift distance (journal.height - height) journal.changes
    journal.registers
  have changes : ((journal.rollBack height).shift distance).changes =
      (journal.rollBack height).changes.map (·.shift journal.groups distance) := by
    simp only [shift, groups_rollBack]
  apply eq_of_parts
  · exact congrArg Prod.snd back
  · exact (congrArg Prod.fst back).trans changes.symm

theorem spanOf_shift {group : Nat} (inside : group < journal.groups) :
    (journal.shift distance).spanOf group =
      (journal.spanOf group).map (·.shift distance) := by
  have first := journal.registers.read_shift distance (Register.fits_groupStart inside)
  have last := journal.registers.read_shift distance (Register.fits_groupEnd inside)
  simp only [spanOf, shift, first, last, Register.shift]
  cases journal.registers.read (.groupStart group) with
  | none => rfl
  | some first =>
      cases journal.registers.read (.groupEnd group) with
      | none => rfl
      | some last =>
          simp only [Option.map_some, Nat.add_le_add_iff_left]
          split <;> rfl

theorem toTable_shift (first last : Nat) :
    (journal.shift distance).toTable (distance + first) (distance + last) =
      (journal.toTable first last).map (·.shift distance) := by
  have captures : (Array.range journal.groups).map (journal.shift distance).spanOf =
      ((Array.range journal.groups).map journal.spanOf).map (·.map (·.shift distance)) := by
    rw [Array.map_map]
    refine Array.map_congr_left fun group member => ?_
    exact journal.spanOf_shift distance (Array.mem_range.mp member)
  rw [toTable, groups_shift, captures]
  exact CaptureTable.assign_shift distance _ 0 (some ⟨first, last⟩)

end Journal

/-! ## Save points -/

def SavePoint.shift (save : SavePoint) (distance : Nat) : SavePoint :=
  { save with position := distance + save.position }

namespace SaveStack

def shift (stack : SaveStack) (distance : Nat) : SaveStack where
  points := stack.points.map (·.shift distance)
  size := stack.size
  size_eq := by rw [List.length_map, stack.size_eq]

theorem pop?_shift (stack : SaveStack) :
    (stack.shift distance).pop? =
      stack.pop?.map fun (save, rest) => (save.shift distance, rest.shift distance) := by
  rcases stack with ⟨points, size, size_eq⟩
  cases points <;> rfl

private theorem commitAmong?_shift (goal : Nat) (points : List SavePoint) (size : Nat)
    (size_eq : size = points.length)
    (shifted_eq : size = (points.map (·.shift distance)).length) :
    commitAmong? goal (points.map (·.shift distance)) size shifted_eq =
      (commitAmong? goal points size size_eq).map fun (save, rest) =>
        (save.shift distance, rest.shift distance) := by
  induction points generalizing size with
  | nil => rfl
  | cons save points induction =>
      simp only [List.map_cons, commitAmong?, SavePoint.shift]
      split
      · rfl
      · exact induction _ _ _

theorem commitTo?_shift (stack : SaveStack) (goal : Nat) :
    (stack.shift distance).commitTo? goal =
      (stack.commitTo? goal).map fun (save, rest) =>
        (save.shift distance, rest.shift distance) :=
  commitAmong?_shift distance goal stack.points stack.size stack.size_eq _

end SaveStack

/-! ## States -/

def State.shift (state : State) (distance : Nat) : State :=
  { state with
    position := distance + state.position
    saves := state.saves.shift distance
    journal := state.journal.shift distance }

def Effect.shift (distance : Nat) : Effect → Effect
  | .proceed state => .proceed (state.shift distance)
  | .fail state => .fail (state.shift distance)
  | .accept state => .accept (state.shift distance)
  | .stop fault state => .stop fault (state.shift distance)

def Turn.shift (distance : Nat) : Turn → Turn
  | .next state => .next (state.shift distance)
  | .done ending state => .done ending (state.shift distance)

namespace State

variable (state : State) (program : Program)

theorem push_shift (resume : Nat) (marker : Bool) :
    (state.shift distance).push resume marker =
      (state.push resume marker).shift distance := rfl

theorem backtrack?_shift :
    (state.shift distance).backtrack? = state.backtrack?.map (·.shift distance) := by
  have popped := state.saves.pop?_shift distance
  simp only [backtrack?, shift, popped]
  cases state.saves.pop? with
  | none => rfl
  | some top => simp only [Option.map_some, SavePoint.shift, Journal.rollBack_shift]

theorem goTo_shift (label : Label) :
    (state.shift distance).goTo program label =
      (state.goTo program label).shift distance := by
  unfold goTo
  cases program.target? label <;> rfl

theorem beginIteration_shift (counter : UInt16) :
    (state.shift distance).beginIteration counter =
      (state.beginIteration counter).shift distance :=
  congrArg (fun journal => { state.shift distance with journal })
    (state.journal.write_shift distance (Register.fits_origin _ _) (some state.position))

theorem quantify_shift (greed : Greed) (min max : UInt32) (counter : UInt16) (exit : Label) :
    (state.shift distance).quantify program greed min max counter exit =
      (state.quantify program greed min max counter exit).shift distance := by
  have counters : (state.shift distance).journal.counters = state.journal.counters :=
    state.journal.counters_shift distance
  have count : (state.shift distance).journal.count = state.journal.count :=
    funext (state.journal.count_shift distance)
  simp only [quantify, counters, count, beginIteration_shift, goTo_shift, push_shift]
  split
  · rfl
  · split
    · rfl
    · split
      · rfl
      · cases greed with
        | greedy => cases program.target? exit <;> rfl
        | lazy => rfl

theorem endIteration_shift (counter : UInt16) (head : Label) :
    (state.shift distance).endIteration program counter head =
      (state.endIteration program counter head).shift distance := by
  have counters : (state.shift distance).journal.counters = state.journal.counters :=
    state.journal.counters_shift distance
  have count : (state.shift distance).journal.count = state.journal.count :=
    funext (state.journal.count_shift distance)
  have moved : ((state.shift distance).journal.origin counter.toNat ==
      some (state.shift distance).position) =
        (state.journal.origin counter.toNat == some state.position) := by
    have origin := state.journal.origin_shift distance counter.toNat
    rw [Bool.eq_iff_iff, beq_iff_eq, beq_iff_eq]
    simp only [shift, origin, Option.map_eq_some_iff, Nat.add_left_cancel_iff, exists_eq_right]
  cases loops : program.loopMinimum? head with
  | none => simp only [endIteration, loops, Effect.shift]
  | some least =>
      simp only [endIteration, loops, counters, count, moved]
      split
      · rfl
      · split
        · rfl
        · have written := state.journal.write_shift distance
            (Register.fits_count _ counter.toNat)
            (some (nextCount (state.journal.count counter.toNat)))
          rw [← goTo_shift]
          exact congrArg (fun journal => goTo { state.shift distance with journal } program head)
            written

theorem commit_shift (target : Label) (keep : Bool) :
    (state.shift distance).commit program target keep =
      (state.commit program target keep).shift distance := by
  unfold commit
  cases program.target? target with
  | none => rfl
  | some goal =>
      have found := state.saves.commitTo?_shift distance goal
      simp only [shift, found]
      cases state.saves.commitTo? goal with
      | none => rfl
      | some committed =>
          cases keep with
          | true => rfl
          | false =>
              simp only [Option.map_some, SavePoint.shift, Journal.rollBack_shift]
              rfl

theorem capturing_shift (group : UInt16) {write : Journal → Nat → Option Nat → Journal}
    (moves : ∀ (journal : Journal) group position, group < journal.groups →
      write (journal.shift distance) group (some (distance + position)) =
        (write journal group (some position)).shift distance) :
    (state.shift distance).capturing group write =
      (state.capturing group write).shift distance := by
  have groups : (state.shift distance).journal.groups = state.journal.groups :=
    state.journal.groups_shift distance
  simp only [capturing, groups]
  split
  · next inside =>
      exact congrArg (fun journal => Effect.proceed { state.shift distance with journal })
        (moves _ _ _ inside)
  · rfl

end State

namespace Attempt

theorem resolve_shift (effect : Effect) :
    resolve (effect.shift distance) = (resolve effect).shift distance := by
  cases effect with
  | fail state =>
      simp only [Effect.shift, resolve, State.backtrack?_shift]
      cases state.backtrack? <;> rfl
  | proceed => rfl
  | accept => rfl
  | stop => rfl

end Attempt

end RegexMachine
