import RegexMachine.Proofs.Machine.Loops
import RegexMachine.Proofs.Pattern.Placement
import RegexMachine.Proofs.Text.Folding
import RegexMachine.Proofs.Text.Slices

/-! # Fragments in place yield their outcomes

A program that holds the instructions of a fragment yields, when it is entered
at the first of them, the outcomes of the fragment in their order. -/

namespace RegexMachine

namespace Matcher

theorem chain_stay (matcher : Matcher) : matcher.chain (fun here => [here]) = matcher := by
  funext here
  exact List.flatMap_singleton' _

theorem capture_forward (group : Nat) (body : Matcher) :
    body.capture group .forward =
      chain (fun here => [here.setStart group])
        (body.chain fun here => [here.setEnd group]) := by
  funext here
  simp [capture, chain, List.map_eq_flatMap]

theorem capture_reverse (group : Nat) (body : Matcher) :
    body.capture group .reverse =
      chain (fun here => [here.setEnd group])
        (body.chain fun here => [here.setStart group]) := by
  funext here
  simp [capture, chain, List.map_eq_flatMap]

end Matcher

theorem State.arrive_effect (state : State) (subject : Subject) (next : Option Nat)
    (boundary : Bool) :
    state.arrive subject next boundary = .fail state ∧
        state.outcome.arrive subject next boundary = [] ∨
      ∃ position, state.arrive subject next boundary = .proceed { state with position } ∧
        state.outcome.arrive subject next boundary =
          [{ state.outcome with position }] := by
  unfold State.arrive Outcome.arrive
  cases next with
  | none => exact .inl ⟨rfl, rfl⟩
  | some position =>
      simp only
      split
      · exact .inl ⟨rfl, rfl⟩
      · exact .inr ⟨position, rfl, rfl⟩

namespace Fragment

variable {attempt : Attempt} {direction : Direction} {first last floor : Nat}

section

variable (unbounded : attempt.budget = 0)
include unbounded

variable [CharacterData]

theorem realizes_literal {text : Octets} {flags : MatchFlags}
    (placed : (literal text flags).Placed attempt.program direction first last floor) :
    attempt.Realizes ((literal text flags).outcomes attempt.subject direction) first last
      floor := by
  rcases placed with ⟨rfl, offset, length, slice, found, read, spelled⟩
  apply Attempt.Realizes.leaf unbounded found
  intro state _
  rcases Option.ite_none_right_eq_some.mp read with ⟨fits, same⟩
  have ordered : slice.first ≤ slice.last := by
    cases same
    exact Nat.le_add_right _ _
  have inside : slice.last ≤ slice.octets.size := by
    cases same
    exact fits
  simp only [Instruction.step, read, outcomes, ← spelled,
    Subject.passLiteral_toOctets ordered inside]
  exact state.arrive_effect _ _ _

theorem realizes_backref (valid : attempt.program.Valid) {group : UInt16}
    {flags : MatchFlags}
    (placed : (backref group flags).Placed attempt.program direction first last floor) :
    attempt.Realizes ((backref group flags).outcomes attempt.subject direction) first last
      floor := by
  rcases placed with ⟨rfl, found⟩
  have inside := (valid.resolves _ _ found).2
  apply Attempt.Realizes.leaf unbounded found
  intro state sized
  have known : group.toNat < state.journal.groups := by
    rw [sized.groups_eq]
    exact inside
  simp only [Instruction.step, if_neg (Nat.not_le_of_lt known), outcomes,
    State.spanOf_outcome known]
  cases state.journal.spanOf group.toNat with
  | none => exact .inr ⟨state.position, rfl, rfl⟩
  | some span => exact state.arrive_effect _ _ _

omit unbounded in
/-- Asking the set that is gathered of ranges is asking the ranges. -/
theorem passUnit_takes {ranges : List Interval} {caseless : Bool} {set : RuneSet}
    (gathered : Encoder.gatherRanges ranges caseless = .ok set) (subject : Subject)
    (position : Nat) (direction : Direction) (negated : Bool) :
    (subject.passUnit position direction fun rune =>
        set.contains (if caseless then rune.caseFold else rune) != negated) =
      subject.passUnit position direction fun rune =>
        takes ranges caseless rune != negated := by
  refine Subject.passUnit_congr (fun rune scalar => ?_) position direction
  have inside : (if caseless then rune.caseFold else rune) ≤ Rune.last := by
    cases caseless with
    | false => exact scalar.le_last
    | true => exact rune.caseFold_le_last scalar.le_last
  rw [(Encoder.gathers_of_gatherRanges gathered).contains_eq inside, takes]

/-- A fragment in place realizes its outcomes if its parts do. -/
def RealizesInPlace (attempt : Attempt) (fragment : Fragment) : Prop :=
  ∀ direction first last floor,
    fragment.Placed attempt.program direction first last floor →
      attempt.Realizes (fragment.outcomes attempt.subject direction) first last floor

omit unbounded in
theorem realizes_row {parts : List Fragment}
    (each : ∀ part ∈ parts, RealizesInPlace attempt part)
    (placed : PlacedRow attempt.program parts direction first last floor) :
    attempt.Realizes
      (Matcher.sequence direction (outcomesEach attempt.subject parts direction)) first
        last floor := by
  induction parts generalizing first last with
  | nil =>
      cases placed
      exact .stay
  | cons part rest induction =>
      rcases List.forall_mem_cons.mp each with ⟨here, others⟩
      cases direction with
      | forward =>
          rcases placed with ⟨middle, front, back⟩
          exact (here _ _ _ _ front).chain (induction others back)
      | reverse =>
          rcases placed with ⟨middle, front, back⟩
          exact Attempt.Realizes.chain (induction others front) (here _ _ _ _ back)

theorem realizes_choice {alternatives : List Fragment} {entry : Nat}
    (each : ∀ alternative ∈ alternatives, RealizesInPlace attempt alternative)
    (placed : PlacedChoice attempt.program alternatives direction entry first last floor) :
    attempt.Realizes
      (Matcher.choose (outcomesEach attempt.subject alternatives direction)) entry last
        floor := by
  induction alternatives generalizing entry first with
  | nil => exact placed.elim
  | cons alternative rest induction =>
      rcases List.forall_mem_cons.mp each with ⟨here, others⟩
      rcases placed with ⟨target, middle, bound, body, following⟩
      have realized := here _ _ _ _ body
      cases rest with
      | nil =>
          rcases following with ⟨jumped, rfl⟩
          have entered := (Attempt.Realizes.jump unbounded jumped bound).chain realized
          intro state address sized
          have yields := entered state address sized
          simpa [Matcher.chain, Matcher.choose, outcomesEach] using yields
      | cons next rest =>
          rcases following with ⟨branched, ⟨done, left, ends⟩, placed⟩
          have preferred := realized.chain (.jump unbounded left ends)
          rw [Matcher.chain_stay] at preferred
          exact .branch unbounded branched bound preferred (induction others placed)

/-- Every fragment in place yields its outcomes. -/
theorem realizes (valid : attempt.program.Valid) (fragment : Fragment) :
    RealizesInPlace attempt fragment := by
  induction fragment using Fragment.induct with
  | literal => exact fun _ _ _ _ placed => realizes_literal unbounded placed
  | any flags =>
      intro direction first last floor placed
      rcases placed with ⟨rfl, found⟩
      exact .leaf unbounded found fun state _ => state.arrive_effect _ _ _
  | ofClass runeClass flags negated =>
      intro direction first last floor placed
      rcases placed with ⟨rfl, found⟩
      exact .leaf unbounded found fun state _ => state.arrive_effect _ _ _
  | ofSet ranges flags negated =>
      intro direction first last floor placed
      rcases placed with ⟨rfl, index, set, found, stored, gathered⟩
      apply Attempt.Realizes.leaf unbounded found
      intro state _
      simp only [Instruction.step, stored, outcomes, passUnit_takes gathered]
      exact state.arrive_effect _ _ _
  | backref => exact fun _ _ _ _ placed => realizes_backref unbounded valid placed
  | skip count =>
      intro direction first last floor placed
      rcases placed with ⟨rfl, word, rfl, found⟩
      exact .leaf unbounded found fun state _ => state.arrive_effect _ _ _
  | anchored anchor =>
      intro direction first last floor placed
      rcases placed with ⟨rfl, found⟩
      apply Attempt.Realizes.leaf unbounded found
      intro state _
      cases holds : attempt.subject.anchorHolds state.position anchor with
      | true => exact .inr ⟨state.position, if_pos holds, if_pos holds⟩
      | false =>
          have fails : ¬attempt.subject.anchorHolds state.position anchor = true := by
            simp [holds]
          exact .inl ⟨if_neg fails, if_neg fails⟩
  | sequence parts induction =>
      intro direction first last floor placed
      exact realizes_row induction placed
  | alternation alternatives induction =>
      intro direction first last floor placed
      cases alternatives with
      | nil =>
          rcases placed with ⟨rfl, found⟩
          exact .leaf unbounded found fun _ _ => .inl ⟨rfl, rfl⟩
      | cons alternative rest => exact realizes_choice unbounded induction placed
  | repetition greed min max body induction =>
      intro direction first last floor placed
      rcases placed with ⟨counter, done, back, middle, above, rfl, started, quantified,
        ends, placed, repeated, returns⟩
      have loop : attempt.Loop greed min max counter (first + 1) middle (middle + 1) :=
        ⟨valid.resolves _ _ started, ⟨done, quantified, ends⟩, ⟨back, repeated, returns⟩⟩
      exact .iterate unbounded loop started (induction _ _ _ _ placed) above
  | capture group body induction =>
      intro direction first last floor placed
      have sets {address} (found : attempt.program.instructions[address]? =
          some (.beginCapture group)) :
          attempt.Realizes (fun here => [here.setStart group.toNat]) address (address + 1)
            floor :=
        .setStart unbounded found (valid.resolves _ (.beginCapture group) found).2
      have closes {address} (found : attempt.program.instructions[address]? =
          some (.endCapture group)) :
          attempt.Realizes (fun here => [here.setEnd group.toNat]) address (address + 1)
            floor :=
        .setEnd unbounded found (valid.resolves _ (.endCapture group) found).2
      cases direction with
      | forward =>
          rcases placed with ⟨middle, rfl, opened, placed, closed⟩
          simp only [outcomes, Matcher.capture_forward]
          exact (sets opened).chain ((induction _ _ _ _ placed).chain (closes closed))
      | reverse =>
          rcases placed with ⟨middle, rfl, closed, placed, opened⟩
          simp only [outcomes, Matcher.capture_reverse]
          exact (closes closed).chain ((induction _ _ _ _ placed).chain (sets opened))
  | lookaround sight negated body induction =>
      intro direction first last floor placed
      cases negated with
      | true =>
          rcases placed with ⟨done, middle, rfl, saved, bound, placed, committed, failed⟩
          exact .lookNegated unbounded saved bound (induction _ _ _ _ placed) committed
            failed
      | false =>
          rcases placed with
            ⟨failure, done, middle, rfl, saved, bound, placed, committed, jumped, ends,
             failed⟩
          exact .look unbounded saved bound (induction _ _ _ _ placed) committed jumped
            ends failed

end

end Fragment

end RegexMachine
