import RegexMachine.Proofs.Machine.Composition

/-! # Loops

Every time the machine comes to the head of a loop, the counter holds the
number of iterations so far, and what the machine yields from there is what is
left of the loop. The body cannot spoil this, since it leaves the counter of
the loop alone. -/

namespace RegexMachine

theorem countReaches_some {count : Nat} {bound : UInt32} :
    countReaches (some count) bound = true ↔ bound.toNat ≤ count := by
  simp [countReaches]

namespace Journal

variable {journal : Journal} {groups counters : Nat}

theorem count_setCount (sized : journal.Sized groups counters) {counter : Nat}
    (inside : counter < counters) (content : Option Nat) :
    (journal.setCount counter content).count counter = content :=
  have among : (Register.count counter).Among groups counters := inside
  Registers.read_write_same sized among content

theorem origin_setOrigin (sized : journal.Sized groups counters) {counter : Nat}
    (inside : counter < counters) (content : Option Nat) :
    (journal.setOrigin counter content).origin counter = content :=
  have among : (Register.origin counter).Among groups counters := inside
  Registers.read_write_same sized among content

theorem count_setOrigin (journal : Journal) (counter : Nat) (content : Option Nat)
    (other : Nat) : (journal.setOrigin counter content).count other = journal.count other :=
  have apart : Register.origin counter ≠ .count other := by simp
  Registers.read_write_other (Register.fits_origin _ _) (Register.fits_count _ _) apart _

theorem follows_setCount (journal : Journal) (counter : Nat) (content : Option Nat) :
    (journal.setCount counter content).Follows journal counter :=
  .write journal (Register.fits_count _ _) content fun other below =>
    ⟨by simpa using Nat.ne_of_gt below, by simp⟩

theorem follows_setOrigin (journal : Journal) (counter : Nat) (content : Option Nat) :
    (journal.setOrigin counter content).Follows journal counter :=
  .write journal (Register.fits_origin _ _) content fun other below =>
    ⟨by simp, by simpa using Nat.ne_of_gt below⟩

end Journal

namespace State

theorem outcome_setOrigin (state : State) (counter : Nat) (content : Option Nat) :
    { state with journal := state.journal.setOrigin counter content }.outcome =
      state.outcome :=
  outcome_write (Register.fits_origin _ _) content fun group => ⟨by simp, by simp⟩

theorem outcome_setCount (state : State) (counter : Nat) (content : Option Nat) :
    { state with journal := state.journal.setCount counter content }.outcome =
      state.outcome :=
  outcome_write (Register.fits_count _ _) content fun group => ⟨by simp, by simp⟩

end State

namespace Attempt

variable {attempt : Attempt}

structure Loop (attempt : Attempt) (greed : Greed) (min max : UInt32) (counter : UInt16)
    (head middle exit : Nat) : Prop where
  inside : counter.toNat < attempt.program.counterCount
  quantified : ∃ done, attempt.program.instructions[head]? =
      some (.quantify greed min max counter done) ∧
    attempt.program.target? done = some exit
  repeated : ∃ back, attempt.program.instructions[middle]? =
      some (.repeatEnd counter back) ∧
    attempt.program.target? back = some head

namespace Loop

variable {greed : Greed} {min max : UInt32} {counter : UInt16} {head middle exit : Nat}
  {state : State} {count : Nat} {matcher second : Matcher}

section

variable (unbounded : attempt.budget = 0)
  (loop : attempt.Loop greed min max counter head middle exit)
  (sized : state.journal.Sized attempt.program.captureCount attempt.program.counterCount)
  (counted : state.journal.count counter.toNat = some count)

include unbounded loop sized counted

variable [CharacterData]

/-- At the end of an iteration the loop goes back to its head, unless the
iteration was not owed and has not moved. -/
theorem endIteration {origin : Nat} (address : state.address = middle)
    (began : state.journal.origin counter.toNat = some origin)
    (again : ∀ next : State, next.address = head →
      next.journal.Sized attempt.program.captureCount attempt.program.counterCount →
        next.journal.count counter.toNat = some (count + 1) →
          attempt.Yields exit counter.toNat next.saves next.journal next
            (second next.outcome)) :
    attempt.Yields exit counter.toNat state.saves state.journal state
      (if min.toNat ≤ count ∧ state.position = origin then []
        else second state.outcome) := by
  rcases loop.repeated with ⟨back, found, returns⟩
  rcases loop.quantified with ⟨done, quantified, -⟩
  rw [← address] at found
  have minimum : attempt.program.loopMinimum? back = some min := by
    simp [Program.loopMinimum?, returns, quantified]
  have inside : ¬state.counted.journal.counters ≤ counter.toNat := by
    rw [show state.counted.journal.counters = _ from sized.counters_eq]
    exact Nat.not_le_of_lt loop.inside
  have effect : (Instruction.repeatEnd counter back).step attempt.program attempt.subject
      state.counted =
        if min.toNat ≤ count ∧ state.position = origin then .fail state.counted
        else .proceed { state.counted with
          address := head
          journal := state.journal.setCount counter.toNat (some (count + 1)) } := by
    simp only [Instruction.step, State.endIteration, minimum, inside, if_false,
      State.goTo, returns]
    rw [show state.counted.journal.count counter.toNat = _ from counted,
      show state.counted.journal.origin counter.toNat = _ from began]
    have test : (countReaches (some count) min && some origin == some state.position) =
        true ↔ min.toNat ≤ count ∧ state.position = origin := by
      rw [Bool.and_eq_true, countReaches_some, beq_iff_eq, Option.some.injEq,
        eq_comm (a := origin)]
    exact ite_congr (propext test) (fun _ => rfl) fun _ => rfl
  by_cases stuck : min.toNat ≤ count ∧ state.position = origin
  · rw [if_pos stuck] at effect ⊢
    exact .none (fallsBack_of_fail unbounded found effect)
  · rw [if_neg stuck] at effect ⊢
    let next : State :=
      { state.counted with
        address := head
        journal := state.journal.setCount counter.toNat (some (count + 1)) }
    have same : next.outcome = state.outcome := State.outcome_setCount state _ _
    have yields := again next rfl ((Journal.sized_write _ _ _).mpr sized)
      (Journal.count_setCount sized loop.inside _)
    rw [same] at yields
    exact .reach (reaches_of_proceed unbounded found effect)
      (yields.weaken (Journal.follows_setCount _ _ _))

/-- One more iteration after the state at the head has begun it, and then
whatever comes from the head again. -/
theorem iteration (body : attempt.Realizes matcher (head + 1) middle (counter.toNat + 1))
    (next : State) (address : next.address = head + 1)
    (position : next.position = state.position)
    (journal : next.journal =
      state.journal.setOrigin counter.toNat (some state.position))
    (again : ∀ next : State, next.address = head →
      next.journal.Sized attempt.program.captureCount attempt.program.counterCount →
        next.journal.count counter.toNat = some (count + 1) →
          attempt.Yields exit counter.toNat next.saves next.journal next
            (second next.outcome)) :
    attempt.Yields exit counter.toNat next.saves next.journal next
      ((matcher state.outcome).flatMap fun landing =>
        if min.toNat ≤ count ∧ landing.position = state.position then []
        else second landing) := by
  have nextSized : next.journal.Sized attempt.program.captureCount
      attempt.program.counterCount := by
    rw [journal]
    exact (Journal.sized_write _ _ _).mpr sized
  have moved : next.outcome = State.outcome
      { state with journal := state.journal.setOrigin counter.toNat (some state.position) } :=
    State.outcome_congr position journal
  rw [← moved.trans (State.outcome_setOrigin state _ _)]
  apply (body next address nextSized).bind (Nat.le_succ _)
  intro here arrived
  have hereCount : here.journal.count counter.toNat = some count := by
    rw [arrived.follows.counts _ (Nat.lt_succ_self _), journal, Journal.count_setOrigin,
      counted]
  have hereOrigin : here.journal.origin counter.toNat = some state.position := by
    rw [arrived.follows.origins _ (Nat.lt_succ_self _), journal,
      Journal.origin_setOrigin sized loop.inside]
  exact loop.endIteration unbounded (arrived.follows.extension.sized.mpr nextSized)
    hereCount arrived.address hereOrigin again

omit unbounded in
/-- What the head of the loop does, by the number of iterations so far. -/
theorem head_step (address : state.address = head) :
    ∃ done, attempt.program.instructions[head]? =
        some (.quantify greed min max counter done) ∧
      (Instruction.quantify greed min max counter done).step attempt.program
          attempt.subject state.counted =
        if count < min.toNat then .proceed (state.counted.beginIteration counter)
        else if max.toNat ≤ count then .proceed { state.counted with address := exit }
        else
          match greed with
          | .greedy => .proceed ((state.counted.push exit false).beginIteration counter)
          | .lazy =>
              .proceed { (state.counted.beginIteration counter).push (head + 1) false with
                address := exit } := by
  subst address
  rcases loop.quantified with ⟨done, found, ends⟩
  refine ⟨done, found, ?_⟩
  have inside : ¬state.counted.journal.counters ≤ counter.toNat := by
    rw [show state.counted.journal.counters = _ from sized.counters_eq]
    exact Nat.not_le_of_lt loop.inside
  simp only [Instruction.step, State.quantify, inside, if_false, State.goTo, ends]
  rw [show state.counted.journal.count counter.toNat = _ from counted]
  simp only [countReaches, Option.all_some, Bool.not_eq_true', decide_eq_false_iff_not,
    decide_eq_true_eq, Nat.not_le]
  cases greed <;> rfl

theorem iterate (body : attempt.Realizes matcher (head + 1) middle (counter.toNat + 1))
    (address : state.address = head) :
    attempt.Yields exit counter.toNat state.saves state.journal state
      (Matcher.iterate greed min.toNat max.toNat matcher count state.outcome) := by
  induction left : min.toNat + max.toNat - count using Nat.strongRecOn
    generalizing state count with
  | ind left induction =>
      have again (larger : count < min.toNat + max.toNat) (next : State)
          (address : next.address = head)
          (sized : next.journal.Sized attempt.program.captureCount
            attempt.program.counterCount)
          (counted : next.journal.count counter.toNat = some (count + 1)) :
          attempt.Yields exit counter.toNat next.saves next.journal next
            (Matcher.iterate greed min.toNat max.toNat matcher (count + 1) next.outcome) :=
        induction _ (by omega) sized counted address rfl
      have behind : state.counted.address = head + 1 := congrArg (· + 1) address
      have follows : (state.counted.beginIteration counter).journal.Follows state.journal
          counter.toNat := Journal.follows_setOrigin _ _ _
      rcases loop.head_step sized counted address with ⟨done, found, effect⟩
      rw [← address] at found
      rw [Matcher.iterate]
      by_cases owed : count < min.toNat
      · rw [if_pos owed] at effect ⊢
        have entered := loop.iteration unbounded sized counted body
          (state.counted.beginIteration counter) behind rfl rfl (again (by omega))
        simp only [Nat.not_le_of_lt owed, false_and, if_false] at entered
        exact .reach (reaches_of_proceed unbounded found effect) (entered.weaken follows)
      · rw [if_neg owed] at effect ⊢
        by_cases full : max.toNat ≤ count
        · rw [if_pos full] at effect ⊢
          exact .reach (reaches_of_proceed unbounded found effect) (.here rfl rfl rfl)
        · rw [if_neg full] at effect ⊢
          have enough : min.toNat ≤ count := Nat.le_of_not_lt owed
          have once (next : State) (address : next.address = head + 1)
              (position : next.position = state.position)
              (journal : next.journal =
                state.journal.setOrigin counter.toNat (some state.position)) :=
            loop.iteration unbounded sized counted body next address position journal
              (again (by omega))
          simp only [enough, true_and] at once
          cases greed with
          | greedy =>
              let entered := (state.counted.push exit false).beginIteration counter
              have first := once entered behind rfl rfl
              apply Yields.reach (reaches_of_proceed unbounded found effect)
              refine Yields.orElse first rfl follows rfl ?_
              intro later resumed position saves journal
              have back : later.outcome = state.outcome :=
                State.outcome_congr position journal
              rw [← back]
              exact .here resumed saves journal
          | lazy =>
              let left : State :=
                { (state.counted.beginIteration counter).push (head + 1) false with
                  address := exit }
              have same : left.outcome = state.outcome :=
                State.outcome_setOrigin state.counted _ _
              have first : attempt.Yields exit counter.toNat left.saves left.journal left
                  [left.outcome] := .here rfl rfl rfl
              rw [same] at first
              apply Yields.reach (reaches_of_proceed unbounded found effect)
              refine Yields.weaken (Yields.orElse first rfl (.refl _ _) rfl ?_) follows
              intro later resumed position saves journal
              have second := once later resumed position journal
              rwa [saves, journal] at second

end

end Loop

variable [CharacterData]

theorem Realizes.iterate {greed : Greed} {min max : UInt32} {counter : UInt16}
    {first middle exit floor : Nat} {matcher : Matcher} (unbounded : attempt.budget = 0)
    (loop : attempt.Loop greed min max counter (first + 1) middle exit)
    (started : attempt.program.instructions[first]? = some (.repeatStart counter))
    (body : attempt.Realizes matcher (first + 2) middle (counter.toNat + 1))
    (above : floor ≤ counter.toNat) :
    attempt.Realizes (Matcher.iterate greed min.toNat max.toNat matcher 0) first exit
      floor := by
  intro state address sized
  rw [← address] at started
  let next : State :=
    { state.counted with journal := state.journal.startCounter counter.toNat }
  have proceeds : (Instruction.repeatStart counter).step attempt.program attempt.subject
      state.counted = .proceed next := by
    apply if_pos
    rw [show state.counted.journal.counters = _ from sized.counters_eq]
    exact loop.inside
  have zeroSized : (state.journal.setCount counter.toNat (some 0)).Sized
      attempt.program.captureCount attempt.program.counterCount :=
    (Journal.sized_write _ _ _).mpr sized
  have nextSized : next.journal.Sized attempt.program.captureCount
      attempt.program.counterCount := (Journal.sized_write _ _ _).mpr zeroSized
  have counted : next.journal.count counter.toNat = some 0 :=
    (Journal.count_setOrigin _ _ _ _).trans (Journal.count_setCount sized loop.inside _)
  have same : next.outcome = state.outcome :=
    (State.outcome_setOrigin
      { state with journal := state.journal.setCount counter.toNat (some 0) } _ _).trans
      (State.outcome_setCount state _ _)
  have follows : next.journal.Follows state.journal counter.toNat :=
    (Journal.follows_setOrigin _ _ _).trans (Journal.follows_setCount _ _ _)
  have yields := loop.iterate unbounded nextSized counted body
    (congrArg (· + 1) address)
  rw [same] at yields
  exact .reach (reaches_of_proceed unbounded started proceeds)
    ((yields.weaken follows).lower above)

end Attempt

end RegexMachine
