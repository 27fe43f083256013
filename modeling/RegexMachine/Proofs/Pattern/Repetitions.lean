import RegexMachine.Proofs.Machine.Counting
import RegexMachine.Proofs.Pattern.Levels
import RegexMachine.Proofs.Pattern.Soundness
import RegexMachine.Rune.Repertoire

/-! # Repetitions count their iterations

The loops of a compiled program are those of its repetitions, and they are nested as the
repetitions are. So whatever counter a turn reads has been set, and holds no more than
the most iterations of its repetition. -/

namespace RegexMachine

namespace Program

def KeepsLoopsAt (program : Program) (address : Nat) (instruction : Instruction) : Prop :=
  instruction.KeepsLoops program address

def CountsBelow (program : Program) (floor : Nat) (opens : List Nat) : Prop :=
  ∀ opening ∈ opens, ∀ counter,
    program.instructions[opening]? = some (.repeatStart counter) → counter.toNat < floor

variable {program : Program} {first goal floor : Nat} {opens : List Nat} {label : Label}
  {instruction : Instruction} {counter : UInt16}

theorem leadsInto_of_bound (bound : program.target? label = some goal)
    (level : program.openLoops goal = opens) : program.LeadsInto opens label := by
  intro other same
  rw [bound] at same
  cases same
  exact level

theorem diverts_keepsLoops (program : Program) :
    program.Diverts program.openLoops program.KeepsLoopsAt where
  flat address label found := by
    rcases found with found | found <;> exact openLoops_flat found rfl
  keeps address label instruction found labels leads := by
    obtain ⟨goal, bound, -, level⟩ := leads
    rcases labels with rfl | rfl <;> exact leadsInto_of_bound bound level

theorem steady_flat (found : program.instructions[first]? = some instruction)
    (flat : instruction.turnsLoop = false) (keeps : instruction.KeepsLoops program first) :
    program.Steady program.openLoops program.KeepsLoopsAt first (first + 1) :=
  .single found (openLoops_flat found flat) keeps

theorem CountsBelow.cons (below : program.CountsBelow floor opens)
    (starts : program.instructions[first]? = some (.repeatStart counter))
    (least : floor ≤ counter.toNat) :
    program.CountsBelow (counter.toNat + 1) (first :: opens) := by
  refine List.forall_mem_cons.mpr ⟨fun own found => ?_, fun opening member own found => ?_⟩
  · rw [starts] at found
    cases found
    exact Nat.lt_succ_self _
  · have := below opening member own found
    omega

end Program

namespace Fragment

variable {program : Program} {body : Fragment} {greed : Greed} {min max : UInt32}
  {group : UInt16} {sight : Direction} {negated : Bool} {base : List Nat} {floor : Nat}

variable [CharacterData]

theorem loops_repetition (below : program.CountsBelow floor base)
    (within : ∀ base floor, program.CountsBelow floor base →
      body.SteadyFrom program program.openLoops program.KeepsLoopsAt base floor) :
    (repetition greed min max body).SteadyFrom program program.openLoops
      program.KeepsLoopsAt base floor := by
  intro direction first last placed
  obtain ⟨counter, done, back, middle, least, rfl, started, quantified, ends, placed, repeated,
    returns⟩ := placed
  obtain ⟨ordered, steady⟩ := within _ _ (below.cons started least) _ _ _ placed
  refine ⟨by omega, fun inside begins => ?_⟩
  subst begins
  have repeats : program.Repeats first counter max := ⟨started, _, _, _, quantified⟩
  have decided : program.openLoops (first + 2) = first :: program.openLoops first :=
    (Program.openLoops_flat quantified rfl).trans repeats.openLoops_head
  have body := steady (by omega) decided
  have opens : program.openLoops middle = first :: program.openLoops first :=
    body.level_eq.trans decided
  have after : program.openLoops (middle + 1) = program.openLoops first := by
    rw [Program.openLoops_end repeated, opens, List.tail_cons]
  refine ⟨after, fun address behind before instruction read => ?_⟩
  obtain rfl | rfl | inner | rfl : address = first ∨ address = first + 1 ∨
      first + 2 ≤ address ∧ address < middle ∨ address = middle := by omega
  · rw [started] at read
    cases read
    refine ⟨⟨max, repeats⟩, fun opening member found => ?_⟩
    have := below opening member counter found
    omega
  · rw [quantified] at read
    cases read
    exact ⟨first, rfl, repeats, Program.leadsInto_of_bound ends after⟩
  · exact body.keeps address inner.1 inner.2 instruction read
  · rw [repeated] at read
    cases read
    exact ⟨first, max, opens, repeats, returns⟩

theorem loops_capture
    (within : body.SteadyFrom program program.openLoops program.KeepsLoopsAt base floor) :
    (capture group body).SteadyFrom program program.openLoops program.KeepsLoopsAt base
      floor := by
  intro direction first last placed
  obtain ⟨middle, rfl, enters, placed, leaves⟩ : ∃ middle, last = middle + 1 ∧
      program.Steady program.openLoops program.KeepsLoopsAt first (first + 1) ∧
        body.Placed program direction (first + 1) middle floor ∧
          program.Steady program.openLoops program.KeepsLoopsAt middle (middle + 1) := by
    cases direction with
    | forward =>
        obtain ⟨middle, next, opened, placed, closed⟩ := placed
        exact ⟨middle, next, Program.steady_flat opened rfl trivial, placed,
          Program.steady_flat closed rfl trivial⟩
    | reverse =>
        obtain ⟨middle, next, closed, placed, opened⟩ := placed
        exact ⟨middle, next, Program.steady_flat closed rfl trivial, placed,
          Program.steady_flat opened rfl trivial⟩
  obtain ⟨ordered, steady⟩ := within _ _ _ placed
  refine ⟨by omega, fun inside begins => ?_⟩
  have body := steady (by omega) (enters.level_eq.trans begins)
  exact enters.trans (body.trans leaves)

theorem loops_lookaround
    (within : body.SteadyFrom program program.openLoops program.KeepsLoopsAt base floor) :
    (lookaround sight negated body).SteadyFrom program program.openLoops
      program.KeepsLoopsAt base floor := by
  intro direction first last placed
  cases negated with
  | true =>
      obtain ⟨done, middle, rfl, saved, bound, placed, committed, failed⟩ := placed
      obtain ⟨ordered, steady⟩ := within _ _ _ placed
      refine ⟨by omega, fun inside begins => ?_⟩
      have saves := Program.openLoops_flat saved rfl
      have commits := Program.openLoops_flat committed rfl
      have fails := Program.steady_flat failed rfl trivial
      have body := steady (by omega) (saves.trans begins)
      have resumes := fails.level_eq.trans commits
      have enters := Program.steady_flat saved rfl
        (Program.leadsInto_of_bound bound (resumes.trans (body.level_eq.trans saves)))
      have leaves := Program.steady_flat committed rfl (Program.leadsInto_of_bound bound resumes)
      exact enters.trans (body.trans (leaves.trans fails))
  | false =>
      obtain ⟨failure, done, middle, rfl, saved, bound, placed, committed, jumped, ends,
        failed⟩ := placed
      obtain ⟨ordered, steady⟩ := within _ _ _ placed
      refine ⟨by omega, fun inside begins => ?_⟩
      have saves := Program.openLoops_flat saved rfl
      have commits := Program.openLoops_flat committed rfl
      have jumps := Program.openLoops_flat jumped rfl
      have fails := Program.steady_flat failed rfl trivial
      have body := steady (by omega) (saves.trans begins)
      have resumes := jumps.trans commits
      have enters := Program.steady_flat saved rfl
        (Program.leadsInto_of_bound bound (resumes.trans (body.level_eq.trans saves)))
      have leaves := Program.steady_flat committed rfl (Program.leadsInto_of_bound bound resumes)
      have crosses := Program.steady_flat jumped rfl
        (Program.leadsInto_of_bound ends (fails.level_eq.trans jumps))
      exact enters.trans (body.trans (leaves.trans (crosses.trans fails)))

/-- The loops of a fragment in place are nested, and they have other counters than those
around it. -/
theorem loops_steady (program : Program) (fragment : Fragment) :
    ∀ base floor, program.CountsBelow floor base →
      fragment.SteadyFrom program program.openLoops program.KeepsLoopsAt base floor := by
  have leaf {base : List Nat} {first last : Nat} {instruction : Instruction}
      (next : last = first + 1) (found : program.instructions[first]? = some instruction)
      (flat : instruction.turnsLoop = false) (keeps : instruction.KeepsLoops program first) :
      first ≤ last ∧ (last < program.instructions.size → program.openLoops first = base →
        program.Steady program.openLoops program.KeepsLoopsAt first last) := by
    subst next
    exact ⟨Nat.le_succ _, fun _ _ => Program.steady_flat found flat keeps⟩
  induction fragment using Fragment.induct with
  | literal =>
      intro base floor below direction first last placed
      obtain ⟨next, _, _, _, found, -⟩ := placed
      exact leaf next found rfl trivial
  | any => exact fun _ _ _ _ _ _ placed => leaf placed.1 placed.2 rfl trivial
  | ofClass => exact fun _ _ _ _ _ _ placed => leaf placed.1 placed.2 rfl trivial
  | ofSet =>
      intro base floor below direction first last placed
      obtain ⟨next, _, _, found, -⟩ := placed
      exact leaf next found rfl trivial
  | backref => exact fun _ _ _ _ _ _ placed => leaf placed.1 placed.2 rfl trivial
  | skip =>
      intro base floor below direction first last placed
      obtain ⟨next, _, -, found⟩ := placed
      exact leaf next found rfl trivial
  | anchored => exact fun _ _ _ _ _ _ placed => leaf placed.1 placed.2 rfl trivial
  | sequence parts induction =>
      exact fun base floor below direction first last placed =>
        steady_row (fun part member => induction part member base floor below) placed
  | alternation alternatives induction =>
      intro base floor below direction first last placed
      cases alternatives with
      | nil => exact leaf placed.1 placed.2 rfl trivial
      | cons alternative rest =>
          have diverts := program.diverts_keepsLoops
          obtain ⟨ordered, steady⟩ := steady_choice diverts
            (fun part member => induction part member base floor below) placed
          refine ⟨by omega, fun inside begins => ?_⟩
          obtain ⟨entries, alternatives⟩ := steady inside begins
            ((level_entries diverts placed).trans begins)
          exact entries.trans alternatives
  | repetition greed min max body induction =>
      exact fun base floor below => loops_repetition below induction
  | capture group body induction =>
      exact fun base floor below => loops_capture (induction base floor below)
  | lookaround sight negated body induction =>
      exact fun base floor below => loops_lookaround (induction base floor below)

theorem loopsNested_of_compile {fragment : Fragment} {entry : Direction}
    {granularity : Granularity}
    (compiled : fragment.compile entry granularity = .ok program) : program.LoopsNested := by
  obtain ⟨last, placed, ends, size⟩ := placed_of_compile compiled
  obtain ⟨-, steady⟩ := loops_steady program fragment [] 0 nofun _ _ _ placed
  intro address instruction found
  obtain ⟨inside, -⟩ := Array.getElem?_eq_some_iff.mp found
  obtain earlier | rfl : address < last ∨ address = last := by omega
  · exact (steady (by omega) rfl).keeps address (Nat.zero_le _) earlier instruction found
  · rw [ends] at found
    cases found
    trivial

end Fragment

namespace Attempt

variable {attempt : Attempt} {state : State}

section

variable [CharacterData]

/-- Whatever state an attempt at a validated program reaches, turns that stand have led
there. A counter holds what they have made of it, and is not set just if none of them has
written it. As a number it is less than the number of instructions executed so far. If the
loops of the program are nested, as they are in every compiled program, then a counter that
is read is set, and does not exceed the most iterations of its loop. -/
theorem counters_read (validated : attempt.program.validate = .ok ())
    (admitted : attempt.Admitted) (left : State)
    (path : attempt.Reaches (attempt.setOut left) state) :
    (∃ turns, attempt.Standing (attempt.setOut left) state turns) ∧
      (∀ turns, attempt.Standing (attempt.setOut left) state turns → ∀ counter,
        state.journal.count counter = attempt.program.countAfter counter turns ∧
          (state.journal.count counter = none ↔ ∀ turn ∈ turns, ∀ instruction,
            attempt.program.instructions[turn.address]? = some instruction →
              ¬instruction.Writes (.count counter))) ∧
      (∀ counter count, state.journal.count counter = some count → count < state.steps) ∧
      (attempt.program.LoopsNested ∨ (∃ (fragment : Fragment) (entry : Direction)
          (granularity : Granularity),
          fragment.compile entry granularity = .ok attempt.program) →
        state.ReadsWithin attempt.program) := by
  have valid := Program.validate_eq_ok_iff.mp validated
  have bounds := Bounds.setOut valid admitted left
  have unset (counter : Nat) : (attempt.setOut left).journal.count counter = none :=
    Registers.read_ofSize _ _ _
  obtain ⟨turns, standing⟩ := exists_standing valid bounds (remembers_setOut attempt left) path
  have counted (turns) (standing : attempt.Standing (attempt.setOut left) state turns) (counter) :=
    standing.count_eq valid bounds (unset counter)
  refine ⟨⟨turns, standing⟩, fun turns standing counter => ?_, fun counter count holds => ?_,
    fun nests => ?_⟩
  · refine ⟨counted turns standing counter, ?_⟩
    rw [counted turns standing counter]
    exact Program.countAfter_eq_none_iff
  · rw [counted turns standing counter] at holds
    exact Nat.lt_of_lt_of_le (Program.countAfter_lt holds) (standing.length_le valid bounds)
  · have nested : attempt.program.LoopsNested :=
      nests.elim id fun ⟨_, _, _, compiled⟩ => Fragment.loopsNested_of_compile compiled
    have begins : (attempt.setOut left).Tallies attempt.program := nofun
    exact (standing.tallies valid nested bounds begins).readsWithin nested

def onceOrTwice : Fragment :=
  .repetition .greedy 1 2 (.any .none)

def onceOrTwiceAttempt : Attempt where
  program :=
    { instructions := #[.repeatStart 0, .quantify .greedy 1 2 0 ⟨1⟩,
        .matchAny .forward false false, .repeatEnd 0 ⟨0⟩, .accept]
      targets := #[some 1, some 4]
      counterCount := 1 }
  subject := .whole (.byUnits #[0x61]) .codePoint
  start := 0
  budget := 0

end

open scoped Repertoire in
theorem onceOrTwice_reads :
    ∃ ending head : State, onceOrTwiceAttempt.Next ending head ∧ ending.address = 3 ∧
      head.address = 1 ∧ ending.ReadsWithin onceOrTwiceAttempt.program ∧
        head.ReadsWithin onceOrTwiceAttempt.program ∧ ending.journal.count 0 = some 0 ∧
          head.journal.count 0 = some 1 := by
  have compiled : onceOrTwice.compile .forward .codePoint = .ok onceOrTwiceAttempt.program := by
    cbv
  have admitted : onceOrTwiceAttempt.Admitted := ⟨rfl, rfl, fun clusters => by cases clusters⟩
  let started := (Journal.new 1 1).startCounter 0
  let begun := started.setOrigin 0 (some 0)
  have starts : onceOrTwiceAttempt.Next (onceOrTwiceAttempt.setOut {})
      ⟨1, 0, 1, .empty, started⟩ := rfl
  have begins : onceOrTwiceAttempt.Next ⟨1, 0, 1, .empty, started⟩ ⟨2, 0, 2, .empty, begun⟩ := by
    cbv
  have passes : onceOrTwiceAttempt.Next ⟨2, 0, 2, .empty, begun⟩ ⟨3, 1, 3, .empty, begun⟩ := by
    cbv
  have counts : onceOrTwiceAttempt.Next ⟨3, 1, 3, .empty, begun⟩
      ⟨1, 1, 4, .empty, begun.setCount 0 (some 1)⟩ := by
    cbv
  have path := (starts.reaches.tail begins).tail passes
  obtain ⟨-, -, -, ending⟩ := counters_read (by cbv) admitted {} path
  obtain ⟨-, -, -, head⟩ := counters_read (by cbv) admitted {} (path.tail counts)
  exact ⟨_, _, counts, rfl, rfl, ending (.inr ⟨_, _, _, compiled⟩),
    head (.inr ⟨_, _, _, compiled⟩), rfl, rfl⟩

def unstartedLoop : Attempt where
  program :=
    { instructions := #[.quantify .greedy 1 2 0 ⟨0⟩, .matchAny .forward false false,
        .repeatEnd 0 ⟨1⟩, .accept]
      targets := #[some 3, some 0]
      counterCount := 1 }
  subject := .whole (.byUnits #[]) .codePoint
  start := 0
  budget := 0

open scoped Repertoire in
/-- Validation accepts the program, and its first instruction reads a counter that is not
set. That passes for more iterations than the least, so the loop is left at once. -/
theorem unstartedLoop_reads_unset :
    (¬∀ (attempt : Attempt) (left state : State) (greed : Greed) (min max : UInt32)
        (counter : UInt16) (exit : Label), attempt.program.validate = .ok () →
          attempt.Admitted → attempt.Reaches (attempt.setOut left) state →
            attempt.program.instructions[state.address]? =
                some (.quantify greed min max counter exit) →
              ∃ count, state.journal.count counter.toNat = some count ∧ count ≤ max.toNat) ∧
      unstartedLoop.run 2 (unstartedLoop.setOut {}) =
        some (.ok .accepted, ⟨4, 0, 2, .empty, .new 1 1⟩) := by
  refine ⟨fun set => ?_, by cbv⟩
  obtain ⟨count, counted, -⟩ := set unstartedLoop {} _ .greedy 1 2 0 ⟨0⟩ (by cbv)
    ⟨rfl, rfl, fun clusters => by cases clusters⟩ .refl rfl
  cases counted

end Attempt

end RegexMachine
