import RegexMachine.Proofs.Machine.Positions
import RegexMachine.Proofs.Text.Reversal

/-! # Runs among code points

Among code points nothing looks where an instruction lands. Units are passed whole,
comparing foldings goes unit by unit, and a well-formed literal ends where a unit ends.
But the octets of a group need not be well formed, and where they are found again they
may end inside of a unit. There is no other way for a run to leave the cuts. -/

namespace RegexMachine

def Instruction.Formed (program : Program) : Instruction → Prop
  | .matchString _ offset length _ _ =>
      ∀ literal, program.literal? offset length = some literal → literal.toOctets.WellFormed
  | _ => True

def Program.Formed (program : Program) : Prop :=
  ∀ (address : Nat) instruction, program.instructions[address]? = some instruction →
    instruction.Formed program

def Subject.stretch (subject : Subject) (span : Span) : Slice :=
  ⟨subject.text.octets, span.first, span.last⟩

def Subject.WellFormed (subject : Subject) : Prop :=
  (subject.stretch ⟨subject.lower, subject.upper⟩).toOctets.WellFormed

/-- The instruction finds the octets of a group that are not well formed, up to a position
on which it may end. -/
inductive Instruction.Replays (subject : Subject) (state : State) : Instruction → Nat → Prop
  | backref {direction group boundary span position}
      (captured : state.journal.spanOf group.toNat = some span)
      (illFormed : ¬(subject.stretch span).toOctets.WellFormed)
      (passes : subject.passExact state.position (subject.stretch span) direction =
        some position)
      (ends : subject.MayEnd boundary position) :
      Replays subject state (.matchBackref direction group false boundary) position

namespace Instruction

variable {program : Program} {subject : Subject} {state : State} {instruction : Instruction}
  {position : Nat}

variable [CharacterData]

/-- From cuts, an instruction consumes up to a cut or replays what is not well formed. -/
theorem Consumes.isCut_or_replays (codePoints : subject.granularity = .codePoint)
    (formed : instruction.Formed program) (rests : state.RestsOn subject.IsCut)
    (consumes : instruction.Consumes program subject state position) :
    subject.IsCut position ∨ instruction.Replays subject state position := by
  cases consumes with
  | @string direction offset length caseless _ literal _ found passes _ =>
      left
      have fits : literal.first ≤ literal.last ∧ literal.last ≤ literal.octets.size := by
        rw [Program.literal?] at found
        split at found
        · cases found
          exact ⟨Nat.le_add_right _ _, ‹_›⟩
        · cases found
      rw [Subject.passLiteral_toOctets fits.1 fits.2] at passes
      exact (Subject.passLiteral_mirrors (formed literal found) direction caseless
        rests.position passes).1
  | any passes => exact .inl (Subject.passUnit_mirrors codePoints _ _ rests.position passes).1
  | ofClass passes =>
      exact .inl (Subject.passUnit_mirrors codePoints _ _ rests.position passes).1
  | ofSet _ passes =>
      exact .inl (Subject.passUnit_mirrors codePoints _ _ rests.position passes).1
  | @backref direction group caseless boundary span _ known captured passes ends =>
      obtain ⟨-, last, ordered⟩ := rests.spanOf known captured
      have inside : span.last ≤ subject.text.octets.size :=
        Nat.le_trans last.le_last subject.upper_le_size
      have moved := passes
      rw [Subject.passLiteral_toOctets ordered inside] at moved
      cases caseless with
      | true =>
          left
          simp only [Subject.passLiteral, if_true, rests.position.covers] at moved
          exact (Subject.passFolded_mirrors _ direction rests.position moved).1
      | false =>
          by_cases whole : (subject.stretch span).toOctets.WellFormed
          · exact .inl (Subject.passExact_mirrors whole direction rests.position moved).1
          · exact .inr (.backref captured whole passes ends)
  | @advance direction count _ passes =>
      exact .inl (Subject.passUnits_mirrors codePoints direction count.toNat rests.position
        passes).1

end Instruction

namespace Attempt

variable {attempt : Attempt} {state next : State}

/-- The state is about to replay octets that are not well formed, and to end inside of a
unit. -/
def Strays (attempt : Attempt) (state : State) : Prop :=
  attempt.exhausted state = false ∧ ∃ instruction position,
    attempt.program.instructions[state.address]? = some instruction ∧
      instruction.Replays attempt.subject state position ∧ ¬attempt.subject.IsCut position

variable [CharacterData]

theorem Strays.leads (strays : attempt.Strays state) (valid : attempt.program.Valid)
    (bounds : attempt.Bounds state) :
    ∃ next, attempt.Next state next ∧ ¬attempt.subject.IsCut next.position := by
  obtain ⟨unexhausted, _, position, found, replays, inside⟩ := strays
  cases replays with
  | @backref direction group boundary span _ captured _ passes ends =>
      have within : ¬state.counted.journal.groups ≤ group.toNat := by
        have groups : state.counted.journal.groups = attempt.program.captureCount :=
          bounds.sized.groups_eq
        rw [groups]
        exact Nat.not_le_of_lt (valid.resolves _ _ found).2
      have captured : state.counted.journal.spanOf group.toNat = some span := captured
      have moved : attempt.subject.passLiteral state.counted.position
          ⟨attempt.subject.text.octets, span.first, span.last⟩ direction false =
            some position := passes
      refine ⟨{ state.counted with position }, ?_, inside⟩
      rw [Next, turn_of_fetched unexhausted found]
      simp only [Instruction.step, within, if_false, captured, moved, State.arrive]
      rw [if_neg, resolve]
      intro missed
      rw [Bool.and_eq_true, Bool.not_eq_true'] at missed
      rw [ends missed.1] at missed
      exact Bool.noConfusion missed.2

omit [CharacterData] in
theorem not_strays_of_wellFormed (valid : attempt.program.Valid) (bounds : attempt.Bounds state)
    (whole : attempt.subject.WellFormed) (rests : state.RestsOn attempt.subject.IsCut) :
    ¬attempt.Strays state := by
  rintro ⟨-, _, position, found, replays, -⟩
  cases replays with
  | @backref _ group _ _ _ captured illFormed _ _ =>
      have inside : group.toNat < state.journal.groups := by
        rw [bounds.sized.groups_eq]
        exact (valid.resolves _ _ found).2
      obtain ⟨first, last, ordered⟩ := rests.spanOf inside captured
      exact illFormed (Octets.WellFormed.between whole attempt.subject.upper_le_size first last
        ordered)

section

variable (valid : attempt.program.Valid) (formed : attempt.program.Formed)
  (codePoints : attempt.subject.granularity = .codePoint) (admitted : attempt.Admitted)
  (cut : attempt.subject.IsCut attempt.start) (left : State)
include valid formed codePoints admitted cut

theorem restsOn_cuts_or_strays (path : attempt.Reaches (attempt.setOut left) state) :
    state.RestsOn attempt.subject.IsCut ∨
      ∃ earlier, attempt.Reaches (attempt.setOut left) earlier ∧
        attempt.Reaches earlier state ∧ earlier.RestsOn attempt.subject.IsCut ∧
          attempt.Strays earlier := by
  induction path with
  | refl => exact .inl (restsOn_setOut cut left)
  | @tail state next path step induction =>
      rcases induction with rests | ⟨earlier, before, after, rests, strays⟩
      · by_cases strays : attempt.Strays state
        · exact .inr ⟨state, path, step.reaches, rests, strays⟩
        · left
          have bounds := (Bounds.setOut valid admitted left).reaches valid path
          refine restsOn_turn valid bounds rests ?_ step
          intro unexhausted instruction position found consumes
          have counted : state.counted.RestsOn attempt.subject.IsCut := rests.goTo _ _
          rcases consumes.isCut_or_replays codePoints (formed _ _ found) counted with
            landed | replays
          · exact landed
          · by_contra inside
            refine strays ⟨unexhausted, instruction, position, found, ?_, inside⟩
            cases replays with
            | backref captured illFormed passes ends =>
                exact .backref captured illFormed passes ends
      · exact .inr ⟨earlier, before, after.tail step, rests, strays⟩

/-- A run rests on cuts throughout just if no state of it strays. -/
theorem restsOn_cuts_iff :
    (∀ state, attempt.Reaches (attempt.setOut left) state →
        state.RestsOn attempt.subject.IsCut) ↔
      ∀ state, attempt.Reaches (attempt.setOut left) state → ¬attempt.Strays state := by
  constructor
  · intro rests state path strays
    have bounds := (Bounds.setOut valid admitted left).reaches valid path
    obtain ⟨next, step, inside⟩ := strays.leads valid bounds
    exact inside (rests next (path.tail step)).position
  · intro stays state path
    rcases restsOn_cuts_or_strays valid formed codePoints admitted cut left path with
      rests | ⟨earlier, before, -, -, strays⟩
    · exact rests
    · exact absurd strays (stays earlier before)

theorem restsOn_cuts_of_wellFormed (whole : attempt.subject.WellFormed)
    (path : attempt.Reaches (attempt.setOut left) state) :
    state.RestsOn attempt.subject.IsCut := by
  rcases restsOn_cuts_or_strays valid formed codePoints admitted cut left path with
    rests | ⟨earlier, before, -, rests, strays⟩
  · exact rests
  · have bounds := (Bounds.setOut valid admitted left).reaches valid before
    exact absurd strays (not_strays_of_wellFormed valid bounds whole rests)

end

end Attempt

end RegexMachine
