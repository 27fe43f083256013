import RegexMachine.Proofs.Machine.Yields

/-! # Stretches put together

How the stretches of a program that realize matchers make up longer ones that
realize the sequence, the choice, the loop, the capture and the look made of
these matchers. -/

namespace RegexMachine

namespace State

theorem outcome_congr {state other : State} (position : state.position = other.position)
    (journal : state.journal = other.journal) : state.outcome = other.outcome := by
  simp only [outcome, position, journal]

theorem spanOf_outcome {state : State} {group : Nat} (inside : group < state.journal.groups) :
    state.outcome.spanOf group = state.journal.spanOf group := by
  have starts := state.journal.held_of_fits (.groupStart group) inside
  have ends := state.journal.held_of_fits (.groupEnd group) inside
  simp only [Outcome.spanOf, outcome, starts, ends]
  rfl

theorem lt_groups_of_spanOf_outcome {state : State} {group : Nat} {span : Span}
    (captured : state.outcome.spanOf group = some span) : group < state.journal.groups := by
  by_contra outside
  have starts := state.journal.held_of_not_fits (.groupStart group) outside
  simp only [Outcome.spanOf, outcome, starts] at captured
  cases captured

theorem outcome_write {state : State} {register : Register}
    (fits : register.Fits state.journal.groups) (content : Option Nat)
    (apart : ∀ group, register ≠ .groupStart group ∧ register ≠ .groupEnd group) :
    { state with journal := state.journal.write register content }.outcome =
      state.outcome := by
  apply Outcome.ext
  · rfl
  · funext group
    exact Journal.held_write_other fits (apart group).1 content
  · funext group
    exact Journal.held_write_other fits (apart group).2 content

theorem outcome_setStart {state : State} {group groups counters : Nat}
    (sized : state.journal.Sized groups counters) (inside : group < groups) :
    { state with journal := state.journal.setStart group (some state.position) }.outcome =
      state.outcome.setStart group := by
  have among : (Register.groupStart group).Among groups counters := inside
  have fits : (Register.groupStart group).Fits state.journal.groups := sized.groups_eq ▸ inside
  apply Outcome.ext
  · rfl
  · funext other
    refine (Journal.held_write sized among _ _).trans ?_
    simp only [Register.groupStart.injEq, Outcome.setStart, outcome]
  · funext other
    have apart : Register.groupStart group ≠ .groupEnd other := by simp
    exact Journal.held_write_other fits apart _

theorem outcome_setEnd {state : State} {group groups counters : Nat}
    (sized : state.journal.Sized groups counters) (inside : group < groups) :
    { state with journal := state.journal.setEnd group (some state.position) }.outcome =
      state.outcome.setEnd group := by
  have among : (Register.groupEnd group).Among groups counters := inside
  have fits : (Register.groupEnd group).Fits state.journal.groups := sized.groups_eq ▸ inside
  apply Outcome.ext
  · rfl
  · funext other
    have apart : Register.groupEnd group ≠ .groupStart other := by simp
    exact Journal.held_write_other fits apart _
  · funext other
    refine (Journal.held_write sized among _ _).trans ?_
    simp only [Register.groupEnd.injEq, Outcome.setEnd, outcome]

end State

namespace Attempt

variable {attempt : Attempt} {first middle exit floor : Nat} {state next : State}
  {instruction : Instruction} {matcher second : Matcher}

/-! ## Single instructions -/

theorem exhausted_of_unbounded (unbounded : attempt.budget = 0) (state : State) :
    attempt.exhausted state = false := by
  simp [exhausted, unbounded]

section Unbounded

variable (unbounded : attempt.budget = 0)
include unbounded

variable [CharacterData]

theorem reaches_of_proceed
    (found : attempt.program.instructions[state.address]? = some instruction)
    (proceeds : instruction.step attempt.program attempt.subject state.counted =
      .proceed next) : attempt.Reaches state next := by
  apply Next.reaches
  rw [Next, turn_of_fetched (exhausted_of_unbounded unbounded state) found, proceeds]
  rfl

theorem fallsBack_of_fail
    (found : attempt.program.instructions[state.address]? = some instruction)
    (fails : instruction.step attempt.program attempt.subject state.counted =
      .fail state.counted) : attempt.FallsBack state.saves state.journal state := by
  refine ⟨state, state.counted, .refl, ?_, rfl, .refl _⟩
  rw [turn_of_fetched (exhausted_of_unbounded unbounded state) found, fails]

theorem Realizes.leaf (found : attempt.program.instructions[first]? = some instruction)
    (effect : ∀ state : State,
      state.journal.Sized attempt.program.captureCount attempt.program.counterCount →
        instruction.step attempt.program attempt.subject state = .fail state ∧
            matcher state.outcome = [] ∨
          ∃ position,
            instruction.step attempt.program attempt.subject state =
                .proceed { state with position } ∧
              matcher state.outcome = [{ state.outcome with position }]) :
    attempt.Realizes matcher first (first + 1) floor := by
  intro state address sized
  rw [← address] at found
  rcases effect state.counted sized with ⟨fails, empty⟩ | ⟨position, proceeds, single⟩
  · rw [show matcher state.outcome = [] from empty]
    exact .none (fallsBack_of_fail unbounded found fails)
  · rw [show matcher state.outcome = [{ state.outcome with position }] from single]
    apply Yields.reach (reaches_of_proceed unbounded found proceeds)
    exact .here (congrArg (· + 1) address) rfl rfl

theorem Realizes.jump {target : Label}
    (found : attempt.program.instructions[first]? = some (.jump target))
    (bound : attempt.program.target? target = some exit) :
    attempt.Realizes (fun here => [here]) first exit floor := by
  intro state address _
  rw [← address] at found
  have proceeds : (Instruction.jump target).step attempt.program attempt.subject
      state.counted = .proceed { state.counted with address := exit } := by
    simp only [Instruction.step, State.goTo, bound]
  exact .reach (reaches_of_proceed unbounded found proceeds) (.here rfl rfl rfl)

theorem Realizes.write (register : Register)
    (fits : register.Fits attempt.program.captureCount) {change : Outcome → Outcome}
    (found : attempt.program.instructions[first]? = some instruction)
    (spares : ∀ counter, register ≠ .count counter ∧ register ≠ .origin counter)
    (effect : ∀ state : State,
      state.journal.Sized attempt.program.captureCount attempt.program.counterCount →
        instruction.step attempt.program attempt.subject state = .proceed
            { state with journal := state.journal.write register (some state.position) } ∧
          { state with
            journal := state.journal.write register (some state.position) }.outcome =
              change state.outcome) :
    attempt.Realizes (fun here => [change here]) first (first + 1) floor := by
  intro state address sized
  rw [← address] at found
  rcases effect state.counted sized with ⟨proceeds, changed⟩
  apply Yields.reach (reaches_of_proceed unbounded found proceeds)
  simp only [show change state.outcome = _ from changed.symm]
  refine Yields.weaken (Yields.here (congrArg (· + 1) address) rfl rfl) ?_
  have known : register.Fits state.journal.groups := by
    rw [sized.groups_eq]
    exact fits
  exact .write state.journal known _ fun counter _ => spares counter

theorem Realizes.setStart {group : UInt16}
    (found : attempt.program.instructions[first]? = some (.beginCapture group))
    (inside : group.toNat < attempt.program.captureCount) :
    attempt.Realizes (fun here => [here.setStart group.toNat]) first (first + 1) floor := by
  apply Realizes.write unbounded (.groupStart group.toNat) inside found (by simp)
  intro state sized
  refine ⟨if_pos ?_, State.outcome_setStart sized inside⟩
  rw [sized.groups_eq]
  exact inside

theorem Realizes.setEnd {group : UInt16}
    (found : attempt.program.instructions[first]? = some (.endCapture group))
    (inside : group.toNat < attempt.program.captureCount) :
    attempt.Realizes (fun here => [here.setEnd group.toNat]) first (first + 1) floor := by
  apply Realizes.write unbounded (.groupEnd group.toNat) inside found (by simp)
  intro state sized
  refine ⟨if_pos ?_, State.outcome_setEnd sized inside⟩
  rw [sized.groups_eq]
  exact inside

end Unbounded

/-! ## Sequences and choices -/

variable [CharacterData]

theorem Realizes.stay : attempt.Realizes (fun here => [here]) first first floor :=
  fun _ address _ => .here address rfl rfl

theorem Realizes.chain (front : attempt.Realizes matcher first middle floor)
    (back : attempt.Realizes second middle exit floor) :
    attempt.Realizes (matcher.chain second) first exit floor := by
  intro state address sized
  apply (front state address sized).bind (Nat.le_refl floor)
  intro here arrived
  exact back here arrived.address (arrived.follows.extension.sized.mpr sized)

theorem Realizes.again (realizes : attempt.Realizes matcher first exit floor)
    (sized : state.journal.Sized attempt.program.captureCount attempt.program.counterCount)
    (address : next.address = first) (position : next.position = state.position)
    (saves : next.saves = state.saves) (journal : next.journal = state.journal) :
    attempt.Yields exit floor state.saves state.journal next (matcher state.outcome) := by
  have yields := realizes next address (journal ▸ sized)
  rwa [saves, journal, State.outcome_congr position journal] at yields

/-- The stretch at the target of a branch is preferred to the one behind it. -/
theorem Realizes.branch {target : Label} {entry : Nat} (unbounded : attempt.budget = 0)
    (found : attempt.program.instructions[first]? = some (.branch target))
    (bound : attempt.program.target? target = some entry)
    (preferred : attempt.Realizes matcher entry exit floor)
    (other : attempt.Realizes second (first + 1) exit floor) :
    attempt.Realizes (fun here => matcher here ++ second here) first exit floor := by
  intro state address sized
  rw [← address] at found
  have proceeds : (Instruction.branch target).step attempt.program attempt.subject
      state.counted = .proceed { state.counted.push (state.address + 1) false with
        address := entry } := by
    simp only [Instruction.step, State.goTo, bound]
    rfl
  have entered := preferred { state.counted.push (state.address + 1) false with
    address := entry } rfl sized
  apply Yields.reach (reaches_of_proceed unbounded found proceeds)
  refine Yields.orElse entered rfl (.refl _ _) rfl ?_
  intro later resumed position saves journal
  exact other.again sized (resumed.trans (congrArg (· + 1) address)) position saves journal

/-! ## Looks -/

theorem Arrived.commit {base : SaveStack} {save : SavePoint} {kept : Journal} {here : State}
    {target : Label} (unbounded : attempt.budget = 0)
    (arrived : Arrived middle floor (base.push save) kept here)
    (marked : save.marker = true) (height : save.height = kept.height) {keep : Bool}
    (found : attempt.program.instructions[middle]? = some (.clearThrough target keep))
    (bound : attempt.program.target? target = some save.resume) :
    attempt.Reaches here
      { here.counted with
        position := save.position
        saves := base
        journal := if keep then here.journal else kept } := by
  have committed := arrived.stack.commitTo? marked
  have back : here.journal.rollBack save.height = kept := by
    rw [height]
    exact arrived.follows.extension
  rw [← arrived.address] at found
  apply reaches_of_proceed unbounded found
  simp only [Instruction.step, State.commit, bound]
  rw [show here.counted.saves.commitTo? save.resume = _ from committed]
  cases keep with
  | true => rfl
  | false =>
      simp only [Bool.false_eq_true, if_false]
      rw [← back]
      rfl

/-- Where the body of a negated look matches, the commit gives way to a
failure. -/
theorem Realizes.lookNegated {target : Label} (unbounded : attempt.budget = 0)
    (saved : attempt.program.instructions[first]? = some (.save target))
    (bound : attempt.program.target? target = some exit)
    (body : attempt.Realizes matcher (first + 1) middle floor)
    (committed : attempt.program.instructions[middle]? = some (.clearThrough target false))
    (failed : attempt.program.instructions[middle + 1]? = some .fail) :
    attempt.Realizes (Matcher.look true matcher) first exit floor := by
  intro state address sized
  rw [← address] at saved
  have proceeds : (Instruction.save target).step attempt.program attempt.subject
      state.counted = .proceed (state.counted.push exit true) := by
    simp only [Instruction.step, bound]
  have entered : attempt.Yields middle floor
      (state.saves.push ⟨exit, state.position, state.journal.height, true⟩) state.journal
      (state.counted.push exit true) (matcher state.outcome) :=
    body (state.counted.push exit true) (congrArg (· + 1) address) sized
  apply Yields.reach (reaches_of_proceed unbounded saved proceeds)
  unfold Matcher.look
  generalize matcher state.outcome = outcomes at entered ⊢
  cases entered with
  | none falls =>
      rcases falls.resume (.refl _) rfl with
        ⟨later, path, resumed, position, saves, journal⟩
      rw [← State.outcome_congr position journal]
      exact .reach path (.here resumed saves journal)
  | found path arrived _ =>
      have returned := arrived.commit unbounded rfl rfl committed bound
      apply Yields.none
      apply FallsBack.reach (path.trans returned)
      rw [← arrived.address] at failed
      exact fallsBack_of_fail unbounded failed rfl

/-- Where the body of a look matches, the commit keeps its groups and jumps over
the failure. -/
theorem Realizes.look {target done : Label} {failing : Nat}
    (unbounded : attempt.budget = 0)
    (saved : attempt.program.instructions[first]? = some (.save target))
    (bound : attempt.program.target? target = some failing)
    (body : attempt.Realizes matcher (first + 1) middle floor)
    (committed : attempt.program.instructions[middle]? = some (.clearThrough target true))
    (jumped : attempt.program.instructions[middle + 1]? = some (.jump done))
    (ends : attempt.program.target? done = some exit)
    (failed : attempt.program.instructions[failing]? = some .fail) :
    attempt.Realizes (Matcher.look false matcher) first exit floor := by
  intro state address sized
  rw [← address] at saved
  have proceeds : (Instruction.save target).step attempt.program attempt.subject
      state.counted = .proceed (state.counted.push failing true) := by
    simp only [Instruction.step, bound]
  have entered : attempt.Yields middle floor
      (state.saves.push ⟨failing, state.position, state.journal.height, true⟩)
      state.journal (state.counted.push failing true) (matcher state.outcome) :=
    body (state.counted.push failing true) (congrArg (· + 1) address) sized
  apply Yields.reach (reaches_of_proceed unbounded saved proceeds)
  unfold Matcher.look
  generalize matcher state.outcome = outcomes at entered ⊢
  cases entered with
  | none falls =>
      rcases falls.resume (.refl _) rfl with ⟨later, path, resumed, -, saves, journal⟩
      rw [show failing = later.address from resumed.symm] at failed
      rw [← saves, ← journal]
      exact .none ((fallsBack_of_fail unbounded failed rfl).reach path)
  | @found _ here _ path arrived _ =>
      have returned := arrived.commit unbounded rfl rfl committed bound
      have stayed : attempt.Realizes (fun here => [here]) (middle + 1) exit floor :=
        .jump unbounded jumped ends
      have yields := stayed
        { here.counted with position := state.position, saves := state.saves }
        (congrArg (· + 1) arrived.address) (arrived.follows.extension.sized.mpr sized)
      exact .reach (path.trans returned) (yields.weaken arrived.follows)

end Attempt

end RegexMachine
