import RegexMachine.Proofs.Machine.Composition
import RegexMachine.Proofs.Machine.Standing
import RegexMachine.Proofs.Pattern.Delimiters
import RegexMachine.Proofs.Pattern.Instructions
import RegexMachine.Proofs.Pattern.Verdicts

/-! # Captures come from one traversal

The turns that stand when a compiled program accepts go through the captures of a group
one after the other, and each of them from one end to the other. What is reported of the
group are the positions at which the last of these traversals has begun and ended. -/

namespace RegexMachine

namespace Instruction

variable {program : Program} {subject : Subject} {state next moment : State}
  {instruction : Instruction} {resume : Nat} {marker : Bool} {group : UInt16}
  {register : Register} {label : Label}

/-- The instruction before the address may let the machine go on elsewhere: there or where
its label leads. -/
def LeadsOn (program : Program) (following : Nat) (instruction : Instruction) (goal : Nat) :
    Prop :=
  goal = following ∨ ∃ label, instruction.label? = some label ∧
    program.target? label = some goal

theorem Pushes.leadsOn (pushes : instruction.Pushes program state moment resume marker) :
    instruction.LeadsOn program state.address resume := by
  cases pushes with
  | branch => exact .inl rfl
  | save bound => exact .inr ⟨_, rfl, bound⟩
  | more bound => exact .inr ⟨_, rfl, bound⟩
  | less => exact .inl rfl

variable [CharacterData]

theorem Proceeds.leadsOn (proceeds : instruction.Proceeds program subject state next) :
    instruction.LeadsOn program state.address next.address := by
  cases proceeds with
  | jump bound => exact .inr ⟨_, rfl, bound⟩
  | branch bound => exact .inr ⟨_, rfl, bound⟩
  | full bound => exact .inr ⟨_, rfl, bound⟩
  | less bound => exact .inr ⟨_, rfl, bound⟩
  | again _ bound => exact .inr ⟨_, rfl, bound⟩
  | _ => exact .inl rfl

omit [CharacterData] in
theorem delimits_of_label (labelled : instruction.label? = some label) :
    instruction.delimits group = false := by
  cases instruction <;> first | rfl | cases labelled

omit [CharacterData] in
theorem delimits_of_writes (writes : instruction.Writes register)
    (ofGroup : register = .groupStart group.toNat ∨ register = .groupEnd group.toNat) :
    instruction.delimits group = true := by
  have same {other : UInt16} (equal : other.toNat = group.toNat) : (other == group) = true :=
    beq_iff_eq.mpr (UInt16.toNat_inj.mp equal)
  rcases ofGroup with rfl | rfl
  all_goals
    generalize index : group.toNat = number at writes
    cases writes
    exact same index.symm

end Instruction

namespace Fragment

variable {program : Program} {whole fragment body : Fragment} {group : UInt16}
  {direction : Direction} {first last floor address goal : Nat} {instruction : Instruction}

variable [CharacterData]

theorem Delimited.openCapture_eq (delimited : Delimited program whole group address instruction)
    (found : program.instructions[address]? = some instruction)
    (leads : instruction.LeadsOn program (address + 1) goal) :
    program.openCapture group goal = program.openCapture group (address + 1) := by
  rcases leads with rfl | ⟨label, labelled, bound⟩
  · rfl
  · have silent : instruction.delimits group = false := Instruction.delimits_of_label labelled
    have flat := Program.openCapture_flat found silent
    exact (delimited.leads label goal labelled bound).trans flat.symm

theorem silent_of_placed (spares : fragment.Throughout (Spares group))
    (placed : fragment.Placed program direction first last floor) :
    program.Between (fun instruction => instruction.delimits group = false) first last := by
  refine between_of_placed (spares.imp fun part spared instruction issued => ?_) _ _ _ _ placed
  cases issued with
  | opening => exact beq_eq_false_iff_ne.mpr spared
  | closing => exact beq_eq_false_iff_ne.mpr spared
  | _ => rfl

theorem CapturesAt.ends (captures : whole.CapturesAt program group direction first (last + 1))
    (apart : whole.CapturesApart) :
    program.instructions[first]? = some (.entering group direction) ∧
      program.instructions[last]? = some (.leaving group direction) ∧
        program.Between (fun instruction => instruction.delimits group = false)
          (first + 1) last := by
  obtain ⟨body, floor, member, placed⟩ := captures
  obtain ⟨middle, ends, entered, inner, left⟩ := placed_capture placed
  cases ends
  exact ⟨entered, left, silent_of_placed (apart _ member) inner⟩

end Fragment

/-! ## Turns between captures -/

def State.Delimits (turn : State) (program : Program) (group : UInt16) : Prop :=
  ∃ instruction, program.instructions[turn.address]? = some instruction ∧
    instruction.delimits group = true

namespace Fragment

variable {program : Program} {fragment : Fragment} {group : UInt16} {turn : State}
  {pass turns newer earlier older : List State} {span other : Span} {level : Option Nat}

variable [CharacterData]

/-- The turns, the newest first, go through a capture of the group from one end of the span
to the other one, in the direction in which it was compiled. In between they stay in its
body. -/
def Traverses (program : Program) (fragment : Fragment) (group : UInt16)
    (pass : List State) (span : Span) : Prop :=
  ∃ direction entry inside exit, pass = exit :: (inside ++ [entry]) ∧
    fragment.CapturesAt program group direction entry.address (exit.address + 1) ∧
      (∀ turn ∈ inside, entry.address < turn.address ∧ turn.address < exit.address) ∧
        span.near direction = entry.position ∧ span.far direction = exit.position

def Traversed (program : Program) (fragment : Fragment) (group : UInt16)
    (turns newer : List State) (span : Span) : Prop :=
  ∃ pass older, turns = newer ++ (pass ++ older) ∧ fragment.Traverses program group pass span

/-- No other traversal among the turns is followed by fewer of them. -/
def LastTraversed (program : Program) (fragment : Fragment) (group : UInt16)
    (turns : List State) (span : Span) : Prop :=
  ∃ newer, fragment.Traversed program group turns newer span ∧
    ∀ earlier other, fragment.Traversed program group turns earlier other →
      newer.length ≤ earlier.length

/-- What the turns have done with the captures of a group, by the address that has opened
the one which is open behind them. -/
inductive Traces (program : Program) (fragment : Fragment) (group : UInt16) :
    Option Nat → List State → Prop
  | apart {turns : List State} (silent : ∀ turn ∈ turns, ¬turn.Delimits program group) :
      Traces program fragment group none turns
  | closed {newer pass older : List State} {span : Span}
      (silent : ∀ turn ∈ newer, ¬turn.Delimits program group)
      (traverses : fragment.Traverses program group pass span) :
      Traces program fragment group none (newer ++ (pass ++ older))
  | opened {inside older : List State} {entry : State}
      (within : ∀ turn ∈ inside, ¬turn.Delimits program group ∧
        program.openCapture group turn.address = some entry.address) :
      Traces program fragment group (some entry.address) (inside ++ entry :: older)

omit [CharacterData] in
theorem exists_span (direction : Direction) (near far : Nat) :
    ∃ span : Span, span.near direction = near ∧ span.far direction = far := by
  cases direction with
  | forward => exact ⟨⟨near, far⟩, rfl, rfl⟩
  | reverse => exact ⟨⟨far, near⟩, rfl, rfl⟩

theorem Traverses.exists_cons (traverses : fragment.Traverses program group pass span)
    (apart : fragment.CapturesApart) :
    ∃ exit before, pass = exit :: before ∧ exit.Delimits program group := by
  obtain ⟨direction, entry, inside, exit, rfl, captures, -⟩ := traverses
  obtain ⟨-, left, -⟩ := captures.ends apart
  refine ⟨exit, _, rfl, _, left, ?_⟩
  rw [Instruction.delimits_leaving, beq_self_eq_true]

theorem Traversed.length_le (traversed : fragment.Traversed program group turns earlier other)
    (apart : fragment.CapturesApart) (shape : turns = newer ++ older)
    (silent : ∀ turn ∈ newer, ¬turn.Delimits program group) :
    newer.length ≤ earlier.length := by
  obtain ⟨pass, oldest, split, traverses⟩ := traversed
  obtain ⟨exit, before, rfl, delimits⟩ := traverses.exists_cons apart
  rw [split, List.append_eq_append_iff] at shape
  rcases shape with ⟨more, rfl, rest⟩ | ⟨more, rfl, -⟩
  · cases more with
    | nil => simp
    | cons turn more =>
        obtain ⟨rfl, -⟩ := List.cons.inj rest
        exact absurd delimits (silent exit (by simp))
  · simp

theorem Traversed.exists_last
    (traversed : fragment.Traversed program group turns newer span) :
    ∃ last, fragment.LastTraversed program group turns last := by
  induction size : newer.length using Nat.strongRecOn generalizing newer span with
  | ind size induction =>
      by_cases least : ∀ earlier other, fragment.Traversed program group turns earlier other →
          newer.length ≤ earlier.length
      · exact ⟨span, newer, traversed, least⟩
      · push Not at least
        obtain ⟨earlier, other, sooner, shorter⟩ := least
        exact induction _ (by omega) sooner rfl

namespace Traces

theorem spare (traces : Traces program fragment group level turns)
    (silent : ¬turn.Delimits program group)
    (here : program.openCapture group turn.address = level) :
    Traces program fragment group level (turn :: turns) := by
  cases traces with
  | apart others => exact .apart (List.forall_mem_cons.mpr ⟨silent, others⟩)
  | @closed newer pass older _ others traverses =>
      have both : ∀ other ∈ turn :: newer, ¬other.Delimits program group :=
        List.forall_mem_cons.mpr ⟨silent, others⟩
      exact .closed both traverses
  | @opened inside older entry within =>
      have both : ∀ other ∈ turn :: inside, ¬other.Delimits program group ∧
          program.openCapture group other.address = some entry.address :=
        List.forall_mem_cons.mpr ⟨⟨silent, here⟩, within⟩
      exact .opened both

theorem close {opening : Nat} (traces : Traces program fragment group (some opening) turns)
    (delimits : turn.Delimits program group)
    (here : program.openCapture group turn.address = some opening)
    (closed : program.openCapture group (turn.address + 1) = none) {direction : Direction}
    (captures : fragment.CapturesAt program group direction opening (turn.address + 1)) :
    Traces program fragment group none (turn :: turns) := by
  cases traces with
  | @opened inside older entry within =>
      obtain ⟨span, near, far⟩ := exists_span direction entry.position turn.position
      have stays : ∀ other ∈ inside,
          entry.address < other.address ∧ other.address < turn.address := by
        intro other member
        obtain ⟨silent, level⟩ := within other member
        refine ⟨Program.lt_of_openCapture level, Nat.lt_of_not_le fun beyond => ?_⟩
        rcases Nat.eq_or_lt_of_le beyond with same | later
        · rw [State.Delimits, ← same] at silent
          exact silent delimits
        · have before := Nat.lt_succ_of_lt (Program.lt_of_openCapture here)
          exact Program.openCapture_ne closed before later level
      have pass : fragment.Traverses program group (turn :: (inside ++ [entry])) span :=
        ⟨direction, entry, inside, turn, rfl, captures, stays, near, far⟩
      have traced : Traces program fragment group none
          ([] ++ (turn :: (inside ++ [entry]) ++ older)) := .closed nofun pass
      simpa only [List.nil_append, List.cons_append, List.append_assoc] using traced

end Traces

end Fragment

namespace Attempt

variable {attempt : Attempt} {origin state next final : State} {save : SavePoint} {turn : State}
  {turns newer older pass : List State} {fragment : Fragment} {group : UInt16} {span : Span}

section

variable [CharacterData]

variable (valid : attempt.program.Valid) (bounds : attempt.Bounds origin)
  (delimited : ∀ address instruction,
    attempt.program.instructions[address]? = some instruction →
      fragment.Delimited attempt.program group address instruction)
include valid bounds delimited

theorem TakesBack.openCapture_eq (returns : attempt.TakesBack state next save)
    (reached : attempt.Reaches origin state) :
    attempt.program.openCapture group next.address =
      attempt.program.openCapture group save.resume := by
  cases returns with
  | backtrack backtracks newest =>
      have back := backtracks.backtrack?_eq valid (bounds.reaches valid reached)
      obtain ⟨popped, rest, shape, rfl⟩ := State.backtrack?_eq_some back
      have shape : state.saves.points = popped :: rest.points := shape
      rw [newest] at shape
      cases shape
      rfl
  | revoke step found bound committed =>
      rw [step.revoked found bound committed]
      obtain ⟨-, -, -, rfl⟩ := SaveStack.points_of_commitTo? committed
      exact ((delimited _ _ found).openCapture_eq found (.inr ⟨_, rfl, bound⟩)).symm

theorem Standing.step (standing : attempt.Standing origin next (turn :: turns)) :
    attempt.Standing origin turn turns ∧
      attempt.program.openCapture group next.address =
        attempt.program.openCapture group (turn.address + 1) := by
  cases standing with
  | onward standing step keeps =>
      obtain ⟨instruction, found, -, proceeds⟩ :=
        step.proceeds valid (bounds.reaches valid standing.reaches) keeps
      exact ⟨standing, (delimited _ _ found).openCapture_eq found proceeds.leadsOn⟩
  | back standing pushed returns below =>
      obtain ⟨instruction, found, pushes⟩ := pushed.instruction
      have resumed := returns.openCapture_eq valid bounds delimited pushed.reaches
      exact ⟨standing,
        resumed.trans ((delimited _ _ found).openCapture_eq found pushes.leadsOn)⟩

/-- The standing turns go through the captures of a group one after the other. -/
theorem Standing.traces (standing : attempt.Standing origin state turns)
    (entry : origin.address = 0) :
    fragment.Traces attempt.program group
      (attempt.program.openCapture group state.address) turns := by
  induction turns generalizing state with
  | nil =>
      cases standing
      rw [entry]
      exact .apart nofun
  | cons turn turns induction =>
      obtain ⟨before, level⟩ := standing.step valid bounds delimited
      have earlier := induction before
      obtain ⟨instruction, found⟩ : ∃ instruction,
          attempt.program.instructions[turn.address]? = some instruction :=
        ⟨_, Array.getElem?_eq_getElem (bounds.reaches valid before.reaches).address⟩
      rw [level]
      cases delimits : instruction.delimits group with
      | false =>
          rw [Program.openCapture_flat found delimits]
          refine earlier.spare ?_ rfl
          rintro ⟨other, again, writes⟩
          cases found.symm.trans again
          rw [delimits] at writes
          cases writes
      | true =>
          have writes : turn.Delimits attempt.program group := ⟨instruction, found, delimits⟩
          cases here : attempt.program.openCapture group turn.address with
          | none =>
              rw [Program.openCapture_opens found delimits here]
              have traced : fragment.Traces attempt.program group (some turn.address)
                  ([] ++ turn :: turns) := .opened nofun
              exact traced
          | some opening =>
              have closed := Program.openCapture_closes found delimits here
              obtain ⟨direction, captures⟩ :=
                (delimited _ _ found).closes delimits opening here
              rw [here] at earlier
              rw [closed]
              exact earlier.close writes here closed captures

end

/-! ## Registers after a traversal -/

theorem silent_of_not_delimits {register : Register}
    (ofGroup : register = .groupStart group.toNat ∨ register = .groupEnd group.toNat)
    (silent : ∀ turn ∈ turns, ¬turn.Delimits attempt.program group) :
    ∀ turn ∈ turns, ∀ instruction,
      attempt.program.instructions[turn.address]? = some instruction →
        ¬instruction.Writes register :=
  fun turn member instruction found writes => silent turn member
    ⟨instruction, found, Instruction.delimits_of_writes writes ofGroup⟩

variable [CharacterData]

theorem written_of_traversed {starts ends : Option Nat} (apart : fragment.CapturesApart)
    (traversed : fragment.Traversed attempt.program group turns newer span)
    (silent : ∀ turn ∈ newer, ¬turn.Delimits attempt.program group)
    (first : attempt.LastWritten (.groupStart group.toNat) turns starts)
    (last : attempt.LastWritten (.groupEnd group.toNat) turns ends) :
    starts = some span.first ∧ ends = some span.last := by
  obtain ⟨pass, older, rfl, direction, entry, inside, exit, rfl, captures, stays, near, far⟩ :=
    traversed
  have first := first.of_append (silent_of_not_delimits (.inl rfl) silent)
  have last := last.of_append (silent_of_not_delimits (.inr rfl) silent)
  simp only [List.cons_append, List.append_assoc, List.nil_append] at first last
  obtain ⟨entered, left, between⟩ := captures.ends apart
  have quiet : ∀ turn ∈ inside, ¬turn.Delimits attempt.program group := by
    rintro turn member ⟨instruction, found, delimits⟩
    obtain ⟨behind, before⟩ := stays turn member
    rw [between turn.address instruction behind before found] at delimits
    cases delimits
  -- What is not written where the capture is left has been written where it was entered.
  have opening {register content}
      (written : attempt.LastWritten register (exit :: (inside ++ entry :: older)) content)
      (ofGroup : register = .groupStart group.toNat ∨ register = .groupEnd group.toNat)
      (writes : (Instruction.entering group direction).Writes register)
      (spares : ¬(Instruction.leaving group direction).Writes register) :
      content = some entry.position := by
    cases written with
    | writes found writes =>
        cases left.symm.trans found
        exact absurd writes spares
    | spares _ written =>
        exact (written.of_append (silent_of_not_delimits ofGroup quiet)).eq_some entered writes
  cases direction with
  | forward =>
      rw [← show span.first = entry.position from near] at opening
      rw [opening first (.inl rfl) (.groupStart group) nofun,
        last.eq_some left (.groupEnd group), show span.last = exit.position from far]
      exact ⟨rfl, rfl⟩
  | reverse =>
      rw [← show span.last = entry.position from near] at opening
      rw [opening last (.inr rfl) (.groupEnd group) nofun,
        first.eq_some left (.groupStart group), show span.first = exit.position from far]
      exact ⟨rfl, rfl⟩

/-- Where no capture is open and the ends of the group are in order, the group holds the
span of the last traversal. -/
theorem Standing.spanOf_eq_some_iff {left : State}
    (standing : attempt.Standing (attempt.setOut left) state turns)
    (valid : attempt.program.Valid) (bounds : attempt.Bounds (attempt.setOut left))
    (apart : fragment.CapturesApart)
    (delimited : ∀ address instruction,
      attempt.program.instructions[address]? = some instruction →
        fragment.Delimited attempt.program group address instruction)
    (level : attempt.program.openCapture group state.address = none)
    (ordered : state.outcome.Ordered group.toNat) :
    state.outcome.spanOf group.toNat = some span ↔
      fragment.LastTraversed attempt.program group turns span := by
  have starts := standing.lastWritten valid bounds
    (show (Register.groupStart group.toNat).IsEnd from trivial) (left.journal.held_reset _ _ _)
  have ends := standing.lastWritten valid bounds
    (show (Register.groupEnd group.toNat).IsEnd from trivial) (left.journal.held_reset _ _ _)
  have traces := standing.traces valid bounds delimited rfl
  rw [level] at traces
  rw [Outcome.spanOf_eq_some_iff]
  cases traces with
  | apart silent =>
      constructor
      · rintro ⟨first, -⟩
        have unset := starts.eq_none (silent_of_not_delimits (.inl rfl) silent)
        cases unset.symm.trans first
      · rintro ⟨newer, ⟨pass, older, rfl, traverses⟩, -⟩
        obtain ⟨exit, before, rfl, delimits⟩ := traverses.exists_cons apart
        exact absurd delimits (silent exit (by simp))
  | @closed newer pass older found silent traverses =>
      have last : fragment.Traversed attempt.program group (newer ++ (pass ++ older)) newer
          found := ⟨pass, older, rfl, traverses⟩
      constructor
      · rintro ⟨first, second, -⟩
        obtain ⟨left, right⟩ := written_of_traversed apart last silent starts ends
        have first := Option.some.inj (left.symm.trans first)
        have second := Option.some.inj (right.symm.trans second)
        obtain rfl : found = span := congrArg₂ Span.mk first second
        exact ⟨newer, last, fun earlier other traversed => traversed.length_le apart rfl silent⟩
      · rintro ⟨newest, traversed, least⟩
        obtain ⟨_, _, shape, -⟩ := id traversed
        have front : newest <+: newer := List.prefix_of_prefix_length_le ⟨_, shape.symm⟩
          ⟨_, rfl⟩ (least newer found last)
        have quiet : ∀ turn ∈ newest, ¬turn.Delimits attempt.program group :=
          fun turn member => silent turn (front.subset member)
        obtain ⟨left, right⟩ := written_of_traversed apart traversed quiet starts ends
        exact ⟨left, right, ordered _ _ left right⟩

end Attempt

end RegexMachine
