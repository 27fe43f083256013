import RegexMachine.Proofs.Machine.Atomicity
import RegexMachine.Proofs.Machine.Budgets

/-! # Turns that stand

When the machine returns to a save point, all that it has done since that save point was
pushed is undone, and so it is when a commit does not keep captures. The turns that are
left stand: they are the path that the state at hand has come by. The register of a group
holds the position of the last one of them that has written it. -/

namespace RegexMachine

def Register.IsEnd : Register → Prop
  | .groupStart _ | .groupEnd _ => True
  | .count _ | .origin _ => False

namespace Instruction

variable {program : Program} {subject : Subject} {state next moment other : State}
  {instruction : Instruction} {resume goal : Nat} {marker marked : Bool}
  {register : Register}

theorem Pushes.moment_unique (pushes : instruction.Pushes program state moment resume marker)
    (again : instruction.Pushes program state other goal marked) : moment = other := by
  cases pushes <;> cases again <;> rfl

theorem Pushes.held_eq (pushes : instruction.Pushes program state moment resume marker)
    (isEnd : register.IsEnd) :
    moment.journal.held register = state.journal.held register ∧
      ¬instruction.Writes register := by
  cases pushes with
  | branch => exact ⟨rfl, nofun⟩
  | save => exact ⟨rfl, nofun⟩
  | more =>
      refine ⟨rfl, fun writes => ?_⟩
      cases writes
      exact isEnd
  | less min max counter exit =>
      have apart : Register.origin counter.toNat ≠ register := by
        rintro rfl
        exact isEnd
      refine ⟨Journal.held_write_other (Register.fits_origin _ _) apart _, fun writes => ?_⟩
      cases writes
      exact isEnd

private theorem written_or_held {journal : Journal} {groups counters : Nat} {own : Register}
    (sized : journal.Sized groups counters) (among : own.Among groups counters)
    (writes : instruction.Writes own)
    (only : ∀ other, instruction.Writes other → other = own) (content : Option Nat) :
    instruction.Writes register ∧ (journal.write own content).held register = content ∨
      ¬instruction.Writes register ∧
        (journal.write own content).held register = journal.held register := by
  rw [Journal.held_write sized among]
  by_cases same : register = own
  · subst same
    exact .inl ⟨writes, if_pos rfl⟩
  · exact .inr ⟨fun others => same (only register others), if_neg same⟩

variable [CharacterData]

theorem Proceeds.written (proceeds : instruction.Proceeds program subject state next)
    (resolves : instruction.Resolves program)
    (sized : state.journal.Sized program.captureCount program.counterCount)
    (isEnd : register.IsEnd) (keeps : ∀ label, instruction ≠ .clearThrough label false) :
    instruction.Writes register ∧
        next.journal.held register = some state.position ∨
      ¬instruction.Writes register ∧
        next.journal.held register = state.journal.held register := by
  -- What is written for a counter leaves the register as it is.
  have count (journal : Journal) (counter : Nat) (content : Option Nat) :
      (journal.setCount counter content).held register = journal.held register := by
    refine Journal.held_write_other (Register.fits_count _ _) ?_ _
    rintro rfl
    exact isEnd
  have origin (journal : Journal) (counter : Nat) (content : Option Nat) :
      (journal.setOrigin counter content).held register = journal.held register := by
    refine Journal.held_write_other (Register.fits_origin _ _) ?_ _
    rintro rfl
    exact isEnd
  have silent (counts : ∀ written, instruction.Writes written → ¬written.IsEnd) :
      ¬instruction.Writes register := fun writes => counts register writes isEnd
  cases proceeds with
  | setStart group inside =>
      have among : (Register.groupStart group.toNat).Among program.captureCount
          program.counterCount := resolves.2
      refine written_or_held sized among (.groupStart group) (fun _ writes => ?_) _
      cases writes
      rfl
  | setEnd group inside =>
      have among : (Register.groupEnd group.toNat).Among program.captureCount
          program.counterCount := resolves.2
      refine written_or_held sized among (.groupEnd group) (fun _ writes => ?_) _
      cases writes
      rfl
  | start counter =>
      refine .inr ⟨silent fun _ writes => ?_, (origin _ _ _).trans (count _ _ _)⟩
      cases writes <;> exact id
  | demand | more | less =>
      refine .inr ⟨silent fun _ writes => ?_, origin _ _ _⟩
      cases writes
      exact id
  | again =>
      refine .inr ⟨silent fun _ writes => ?_, count _ _ _⟩
      cases writes
      exact id
  | full =>
      refine .inr ⟨silent fun _ writes => ?_, rfl⟩
      cases writes
      exact id
  | commit bound committed keep =>
      cases keep with
      | true => exact .inr ⟨nofun, rfl⟩
      | false => exact absurd rfl (keeps _)
  | consume consumes => exact .inr ⟨by cases consumes <;> nofun, rfl⟩
  | _ => exact .inr ⟨nofun, rfl⟩

end Instruction

namespace Attempt

variable {attempt : Attempt} {origin state next pusher moment : State} {save : SavePoint}
  {turn : State} {turns newer older : List State} {register : Register} {content : Option Nat}

variable [CharacterData]

/-- The turn undoes what has been done since the save point was pushed: the machine
returns to the save point, or commits to it without keeping captures. -/
inductive TakesBack (attempt : Attempt) (state next : State) (save : SavePoint) : Prop
  | backtrack (backtracks : attempt.Backtracks state next)
      (newest : state.saves.points = save :: next.saves.points) :
      TakesBack attempt state next save
  | revoke {label : Label} {goal : Nat} {rest : SaveStack} (step : attempt.Next state next)
      (found : attempt.program.instructions[state.address]? =
        some (.clearThrough label false))
      (bound : attempt.program.target? label = some goal)
      (committed : state.saves.commitTo? goal = some (save, rest)) :
      TakesBack attempt state next save

/-- The turns, the newest first, have led from the origin to the state, and none of them
has been undone. The turn that has pushed a save point still stands behind the return to
the save point, but none of the turns in between. -/
inductive Standing (attempt : Attempt) (origin : State) : State → List State → Prop
  | start : Standing attempt origin origin []
  | onward {state next : State} {turns : List State}
      (standing : Standing attempt origin state turns)
      (step : attempt.Next state next)
      (keeps : ∀ save, ¬attempt.TakesBack state next save) :
      Standing attempt origin next (state :: turns)
  | back {pusher moment state next : State} {save : SavePoint} {turns : List State}
      (standing : Standing attempt origin pusher turns)
      (pushed : attempt.Pushed origin pusher moment save state)
      (returns : attempt.TakesBack state next save) (below : next.saves = moment.saves) :
      Standing attempt origin next (pusher :: turns)

/-! ## Taking back -/

theorem Next.revoked (step : attempt.Next state next) {label : Label} {goal : Nat}
    {rest : SaveStack}
    (found : attempt.program.instructions[state.address]? = some (.clearThrough label false))
    (bound : attempt.program.target? label = some goal)
    (committed : state.saves.commitTo? goal = some (save, rest)) :
    next =
      { state.counted with
        position := save.position
        saves := rest
        journal := state.journal.rollBack save.height } := by
  obtain ⟨-, resolved⟩ := step.resolve_eq found
  have committed : state.counted.saves.commitTo? goal = some (save, rest) := committed
  simp only [Instruction.step, State.commit, bound, committed, resolve] at resolved
  cases resolved
  rfl

namespace TakesBack

theorem step (returns : attempt.TakesBack state next save) : attempt.Next state next := by
  cases returns with
  | backtrack backtracks newest =>
      obtain ⟨unexhausted, instruction, failed, found, fails, back⟩ := backtracks
      rw [Next, turn_of_fetched unexhausted found, fails, resolve, back]
  | revoke step => exact step

theorem bears (returns : attempt.TakesBack state next save) :
    state.saves.Bears next.saves save := by
  cases returns with
  | backtrack backtracks newest => exact ⟨[], newest⟩
  | revoke step found bound committed =>
      rw [step.revoked found bound committed]
      obtain ⟨above, shape, -⟩ := SaveStack.points_of_commitTo? committed
      exact ⟨above, shape⟩

theorem journal_eq (returns : attempt.TakesBack state next save)
    (valid : attempt.program.Valid) (bounds : attempt.Bounds state) :
    next.journal = state.journal.rollBack save.height := by
  cases returns with
  | backtrack backtracks newest =>
      have back := backtracks.backtrack?_eq valid bounds
      obtain ⟨popped, rest, shape, rfl⟩ := State.backtrack?_eq_some back
      have shape : state.saves.points = popped :: rest.points := shape
      rw [newest] at shape
      cases shape
      rfl
  | revoke step found bound committed => rw [step.revoked found bound committed]

end TakesBack

theorem Keeps.journal_extends {below : SaveStack}
    (kept : attempt.Keeps below save state next) (valid : attempt.program.Valid)
    (bounds : attempt.Bounds state) {older : Journal} (height : save.height = older.height)
    (extension : state.journal.Extends older) : next.journal.Extends older := by
  induction kept with
  | refl => exact extension
  | tail kept turn induction =>
      exact turn.1.extends valid (bounds.reaches valid (Keeps.reaches kept)) turn.2.mem height
        induction

namespace Pushed

theorem reaches (pushed : attempt.Pushed origin pusher moment save state) :
    attempt.Reaches origin state := by
  obtain ⟨first, step, -, kept⟩ := pushed.stays
  exact (pushed.reached.tail step).trans kept.reaches

theorem steps_lt (pushed : attempt.Pushed origin pusher moment save state)
    (valid : attempt.program.Valid) (bounds : attempt.Bounds origin) :
    pusher.steps < state.steps := by
  obtain ⟨first, step, -, kept⟩ := pushed.stays
  have pushing := bounds.reaches valid pushed.reached
  have counted := step.steps valid pushing
  have later := kept.reaches.steps_le valid (pushing.turn valid step)
  omega

/-- As long as the save point is on the stack, the journal goes on from the moment when
it was pushed. -/
theorem journal_extends (pushed : attempt.Pushed origin pusher moment save state)
    (valid : attempt.program.Valid) (bounds : attempt.Bounds origin) :
    state.journal.Extends moment.journal := by
  obtain ⟨first, step, saves, kept⟩ := pushed.stays
  obtain ⟨instruction, found, pushes⟩ := pushed.instruction
  have pushing := bounds.reaches valid pushed.reached
  refine kept.journal_extends valid (pushing.turn valid step) pushed.height ?_
  rcases step.saves valid pushing with
    ⟨above, shrunk⟩ | ⟨_, _, _, _, again, others, -, extension⟩
  · -- The turn has not left a part of the stack, since it has pushed the save point.
    have grown : first.saves.points = save :: pusher.saves.points := by
      rw [saves, pushes.saves_eq]
      rfl
    have lengths := congrArg List.length shrunk
    rw [grown] at lengths
    simp only [List.length_append, List.length_cons] at lengths
    omega
  · rw [found] at again
    cases again
    rw [pushes.moment_unique others]
    exact extension

theorem journal_eq (pushed : attempt.Pushed origin pusher moment save state)
    (returns : attempt.TakesBack state next save) (valid : attempt.program.Valid)
    (bounds : attempt.Bounds origin) : next.journal = moment.journal := by
  rw [returns.journal_eq valid (bounds.reaches valid pushed.reaches), pushed.height]
  exact pushed.journal_extends valid bounds

end Pushed

/-! ## Every state that is reached has come by turns that stand -/

theorem exists_standing (valid : attempt.program.Valid) (bounds : attempt.Bounds origin)
    (remembers : attempt.Remembers origin origin) (path : attempt.Reaches origin state) :
    ∃ turns, attempt.Standing origin state turns := by
  -- The induction is on the number of turns, since what has pushed a save point was reached
  -- after fewer of them than what returns to it.
  induction steps : state.steps using Nat.strongRecOn generalizing state with
  | ind size induction =>
      cases path with
      | refl => exact ⟨[], .start⟩
      | @tail before _ earlier step =>
          have counted := step.steps valid (bounds.reaches valid earlier)
          by_cases taken : ∃ save, attempt.TakesBack before state save
          · obtain ⟨save, returns⟩ := taken
            obtain ⟨pusher, moment, pushed, below, -⟩ :=
              remembers.reaches valid bounds earlier save state.saves returns.bears
            have sooner := pushed.steps_lt valid bounds
            obtain ⟨turns, standing⟩ := induction _ (by omega) pushed.reached rfl
            exact ⟨_, .back standing pushed returns below.symm⟩
          · obtain ⟨turns, standing⟩ := induction _ (by omega) earlier rfl
            exact ⟨_, .onward standing step fun save returns => taken ⟨save, returns⟩⟩

theorem Standing.reaches (standing : attempt.Standing origin state turns) :
    attempt.Reaches origin state := by
  induction standing with
  | start => exact .refl
  | onward _ step _ induction => exact induction.tail step
  | back _ pushed returns _ _ => exact pushed.reaches.tail returns.step

/-! ## What the standing turns have written -/

theorem Next.proceeds_or_backtracks (step : attempt.Next state next)
    (valid : attempt.program.Valid) (bounds : attempt.Bounds state) :
    ∃ instruction, attempt.program.instructions[state.address]? = some instruction ∧
      instruction.Resolves attempt.program ∧
        (instruction.Proceeds attempt.program attempt.subject state.counted next ∨
          attempt.Backtracks state next) := by
  obtain ⟨instruction, found⟩ : ∃ instruction,
      attempt.program.instructions[state.address]? = some instruction :=
    ⟨_, Array.getElem?_eq_getElem bounds.address⟩
  have resolves := valid.resolves _ _ found
  have sized : state.counted.journal.Sized attempt.program.captureCount
      attempt.program.counterCount := bounds.sized
  have allows : instruction.Allows attempt.program attempt.subject state.counted
      (instruction.step attempt.program attempt.subject state.counted) :=
    Instruction.allows_step resolves sized
  obtain ⟨unexhausted, resolved⟩ := step.resolve_eq found
  refine ⟨instruction, found, resolves, ?_⟩
  generalize effect : instruction.step attempt.program attempt.subject state.counted = result
    at resolved allows
  cases allows with
  | proceed proceeds =>
      cases resolved
      exact .inl proceeds
  | fail =>
      rw [resolve] at resolved
      split at resolved
      · next back =>
          cases resolved
          exact .inr ⟨unexhausted, _, _, found, effect, back⟩
      · cases resolved
  | accept => cases resolved
  | stop => cases resolved

theorem Backtracks.exists_takesBack (backtracks : attempt.Backtracks state next)
    (valid : attempt.program.Valid) (bounds : attempt.Bounds state) :
    ∃ save, attempt.TakesBack state next save := by
  obtain ⟨save, rest, shape, same⟩ :=
    State.backtrack?_eq_some (backtracks.backtrack?_eq valid bounds)
  refine ⟨save, .backtrack backtracks ?_⟩
  rw [same]
  exact shape

theorem Next.proceeds (step : attempt.Next state next) (valid : attempt.program.Valid)
    (bounds : attempt.Bounds state) (keeps : ∀ save, ¬attempt.TakesBack state next save) :
    ∃ instruction, attempt.program.instructions[state.address]? = some instruction ∧
      instruction.Resolves attempt.program ∧
        instruction.Proceeds attempt.program attempt.subject state.counted next := by
  obtain ⟨instruction, found, resolves, proceeds | backtracks⟩ :=
    step.proceeds_or_backtracks valid bounds
  · exact ⟨instruction, found, resolves, proceeds⟩
  · obtain ⟨save, returns⟩ := backtracks.exists_takesBack valid bounds
    exact absurd returns (keeps save)

theorem Next.written (step : attempt.Next state next) (valid : attempt.program.Valid)
    (bounds : attempt.Bounds state) (keeps : ∀ save, ¬attempt.TakesBack state next save)
    (isEnd : register.IsEnd) :
    ∃ instruction, attempt.program.instructions[state.address]? = some instruction ∧
      (instruction.Writes register ∧
          next.journal.held register = some state.position ∨
        ¬instruction.Writes register ∧
          next.journal.held register = state.journal.held register) := by
  obtain ⟨instruction, found, resolves, proceeds⟩ := step.proceeds valid bounds keeps
  refine ⟨instruction, found, ?_⟩
  have sized : state.counted.journal.Sized attempt.program.captureCount
      attempt.program.counterCount := bounds.sized
  refine proceeds.written resolves sized isEnd fun label revokes => ?_
  subst revokes
  cases proceeds with
  | commit bound committed => exact keeps _ (.revoke step found bound committed)
  | consume consumes => cases consumes

inductive LastWritten (attempt : Attempt) (register : Register) :
    List State → Option Nat → Prop
  | never : LastWritten attempt register [] none
  | writes {turn : State} {turns : List State} {instruction : Instruction}
      (found : attempt.program.instructions[turn.address]? = some instruction)
      (written : instruction.Writes register) :
      LastWritten attempt register (turn :: turns) (some turn.position)
  | spares {turn : State} {turns : List State} {content : Option Nat}
      (silent : ∀ instruction,
        attempt.program.instructions[turn.address]? = some instruction →
          ¬instruction.Writes register)
      (earlier : LastWritten attempt register turns content) :
      LastWritten attempt register (turn :: turns) content

/-- The end of a group is where the last of the standing turns was that has written it. -/
theorem Standing.lastWritten (standing : attempt.Standing origin state turns)
    (valid : attempt.program.Valid) (bounds : attempt.Bounds origin) (isEnd : register.IsEnd)
    (unset : origin.journal.held register = none) :
    attempt.LastWritten register turns (state.journal.held register) := by
  induction standing with
  | start =>
      rw [unset]
      exact .never
  | onward standing step keeps induction =>
      have within := bounds.reaches valid standing.reaches
      obtain ⟨instruction, found, ⟨writes, content⟩ | ⟨silent, content⟩⟩ :=
        step.written valid within keeps isEnd
      · rw [content]
        exact .writes found writes
      · rw [content]
        refine .spares (fun other again => ?_) induction
        rw [found] at again
        cases again
        exact silent
  | @back pusher moment state next save turns standing pushed returns below induction =>
      obtain ⟨instruction, found, pushes⟩ := pushed.instruction
      obtain ⟨content, silent⟩ := pushes.held_eq isEnd
      rw [pushed.journal_eq returns valid bounds, content]
      refine .spares (fun other again => ?_) induction
      rw [found] at again
      cases again
      exact silent

namespace LastWritten

omit [CharacterData] in
theorem of_append (written : attempt.LastWritten register (newer ++ older) content)
    (silent : ∀ turn ∈ newer, ∀ instruction,
      attempt.program.instructions[turn.address]? = some instruction →
        ¬instruction.Writes register) :
    attempt.LastWritten register older content := by
  induction newer with
  | nil => exact written
  | cons turn newer induction =>
      obtain ⟨here, others⟩ := List.forall_mem_cons.mp silent
      cases written with
      | writes found writes => exact absurd writes (here _ found)
      | spares _ earlier => exact induction earlier others

omit [CharacterData] in
theorem eq_none (written : attempt.LastWritten register turns content)
    (silent : ∀ turn ∈ turns, ∀ instruction,
      attempt.program.instructions[turn.address]? = some instruction →
        ¬instruction.Writes register) : content = none := by
  have written : attempt.LastWritten register (turns ++ []) content := by
    rwa [List.append_nil]
  cases written.of_append silent
  rfl

omit [CharacterData] in
theorem eq_some {instruction : Instruction}
    (written : attempt.LastWritten register (turn :: older) content)
    (found : attempt.program.instructions[turn.address]? = some instruction)
    (writes : instruction.Writes register) : content = some turn.position := by
  cases written with
  | writes => rfl
  | spares silent => exact absurd writes (silent _ found)

end LastWritten

end Attempt

end RegexMachine
