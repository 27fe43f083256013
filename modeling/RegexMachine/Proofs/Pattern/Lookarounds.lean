import Mathlib
import RegexMachine.Proofs.Machine.Atomicity
import RegexMachine.Proofs.Pattern.Instructions
import RegexMachine.Rune.Repertoire

/-! # Lookarounds leave no trace

Every marked save point of a compiled program is pushed by the first instruction of one
of its lookarounds. When the machine comes to the end of that lookaround, it is at the
same position with the same save points, and nothing but the registers of its own groups
and counters has changed. After a negative lookaround not even these have. -/

namespace RegexMachine

namespace Fragment

variable {program : Program} {fragment body : Fragment} {direction sight : Direction}
  {first last floor : Nat} {negated : Bool} {instruction : Instruction} {register : Register}

/-! ## Marked save points -/

variable [CharacterData]

def Marks (program : Program) (fragment : Fragment) (instruction : Instruction) : Prop :=
  ∀ label, instruction = .save label → ∃ sight negated body direction first last floor,
    lookaround sight negated body ∈ fragment.subfragments ∧
      (lookaround sight negated body).Placed program direction first last floor ∧
        program.instructions[first]? = some (.save label)

theorem marks_of_part {part : Fragment} (whole : Fragment)
    (within : ∀ inner ∈ part.subfragments, inner ∈ whole.subfragments)
    (marks : program.Between (Marks program part) first last) :
    program.Between (Marks program whole) first last := by
  refine marks.imp fun instruction marks label same => ?_
  rcases marks label same with ⟨sight, negated, body, direction, first, last, floor, member,
    placed⟩
  exact ⟨sight, negated, body, direction, first, last, floor, within _ member, placed⟩

theorem marks_lookaround
    (body_marks : ∀ first last, body.Placed program sight first last floor →
      program.Between (Marks program body) first last)
    (placed : (lookaround sight negated body).Placed program direction first last floor) :
    program.Between (Marks program (lookaround sight negated body)) first last := by
  have within {first last} (placed : body.Placed program sight first last floor) :=
    marks_of_part (lookaround sight negated body) (fun _ => List.mem_cons_of_mem _)
      (body_marks first last placed)
  have opens {label} (saved : program.instructions[first]? = some (.save label)) :
      program.Between (Marks program (lookaround sight negated body)) first (first + 1) := by
    refine .single saved fun other same => ?_
    cases same
    exact ⟨sight, negated, body, direction, first, last, floor, List.mem_cons_self, placed,
      saved⟩
  cases negated with
  | true =>
      rcases placed with ⟨done, middle, rfl, saved, -, placed, committed, failed⟩
      exact (opens saved).trans ((within placed).trans
        ((Program.Between.single committed nofun).trans (.single failed nofun)))
  | false =>
      rcases placed with ⟨failure, done, middle, rfl, saved, -, placed, committed, jumped, -,
        failed⟩
      exact (opens saved).trans ((within placed).trans
        ((Program.Between.single committed nofun).trans
          ((Program.Between.single jumped nofun).trans (.single failed nofun))))

theorem marks_of_placed (program : Program) (fragment : Fragment) :
    ∀ direction first last floor, fragment.Placed program direction first last floor →
      program.Between (Marks program fragment) first last := by
  have leaf {fragment first last} {instruction : Instruction} (next : last = first + 1)
      (found : program.instructions[first]? = some instruction)
      (plain : ∀ label, instruction ≠ .save label) :
      program.Between (Marks program fragment) first last := by
    subst next
    exact .single found fun label same => absurd same (plain label)
  induction fragment using Fragment.induct with
  | literal =>
      intro direction first last floor placed
      rcases placed with ⟨next, _, _, _, found, -⟩
      exact leaf next found nofun
  | any => exact fun _ _ _ _ placed => leaf placed.1 placed.2 nofun
  | ofClass => exact fun _ _ _ _ placed => leaf placed.1 placed.2 nofun
  | ofSet =>
      intro direction first last floor placed
      rcases placed with ⟨next, _, _, found, -⟩
      exact leaf next found nofun
  | backref => exact fun _ _ _ _ placed => leaf placed.1 placed.2 nofun
  | skip =>
      intro direction first last floor placed
      rcases placed with ⟨next, _, -, found⟩
      exact leaf next found nofun
  | anchored => exact fun _ _ _ _ placed => leaf placed.1 placed.2 nofun
  | sequence parts induction =>
      intro direction first last floor placed
      refine between_row (fun part member direction first last placed => ?_) placed
      refine marks_of_part _ (fun inner inside => ?_)
        (induction part member direction first last floor placed)
      exact List.mem_cons_of_mem _ (mem_subfragmentsEach.mpr ⟨part, member, inside⟩)
  | alternation alternatives induction =>
      intro direction first last floor placed
      cases alternatives with
      | nil => exact leaf placed.1 placed.2 nofun
      | cons alternative rest =>
          have each (part : Fragment) (member : part ∈ alternative :: rest)
              (direction : Direction) (first last : Nat)
              (placed : part.Placed program direction first last floor) :=
            marks_of_part (.alternation (alternative :: rest))
              (fun _ inside => List.mem_cons_of_mem _
                (mem_subfragmentsEach.mpr ⟨part, member, inside⟩))
              (induction part member direction first last floor placed)
          rcases between_choice (fun _ => nofun) (fun _ => nofun) each placed with
            ⟨entries, alternatives⟩
          exact entries.trans alternatives
  | repetition greed min max body induction =>
      intro direction first last floor placed
      rcases placed with ⟨counter, done, back, middle, -, rfl, started, quantified, -, placed,
        repeated, -⟩
      have body := marks_of_part (repetition greed min max body)
        (fun _ => List.mem_cons_of_mem _) (induction _ _ _ _ placed)
      exact (Program.Between.single started nofun).trans
        ((Program.Between.single quantified nofun).trans
          (body.trans (.single repeated nofun)))
  | capture group body induction =>
      intro direction first last floor placed
      cases direction with
      | forward =>
          rcases placed with ⟨middle, rfl, opened, placed, closed⟩
          have body := marks_of_part (capture group body)
            (fun _ => List.mem_cons_of_mem _) (induction _ _ _ _ placed)
          exact (Program.Between.single opened nofun).trans
            (body.trans (.single closed nofun))
      | reverse =>
          rcases placed with ⟨middle, rfl, closed, placed, opened⟩
          have body := marks_of_part (capture group body)
            (fun _ => List.mem_cons_of_mem _) (induction _ _ _ _ placed)
          exact (Program.Between.single closed nofun).trans
            (body.trans (.single opened nofun))
  | lookaround sight negated body induction =>
      exact fun _ _ _ floor placed =>
        marks_lookaround (fun first last => induction sight first last floor) placed

/-! ## Brackets of a lookaround -/

theorem encloses_of_placed (nested : program.Nested)
    (placed : (lookaround sight negated body).Placed program direction first last floor) :
    ∃ middle label, program.Encloses first middle label (!negated) ∧
      program.Leaves middle last ∧ body.Placed program sight (first + 1) middle floor := by
  cases negated with
  | true =>
      rcases placed with ⟨done, middle, rfl, saved, bound, placed, committed, failed⟩
      exact ⟨middle, done, nested.encloses saved bound committed, .resume failed, placed⟩
  | false =>
      rcases placed with ⟨failure, done, middle, rfl, saved, bound, placed, committed, jumped,
        leads, failed⟩
      exact ⟨middle, failure, nested.encloses saved bound committed,
        .across jumped leads failed, placed⟩

/-! ## Registers of a fragment -/

/-- The register is one of a group of the fragment, or one of a counter that a repetition
in the fragment uses between the addresses. -/
inductive Owns (program : Program) (fragment : Fragment) (first last : Nat) : Register → Prop
  | groupStart {group : UInt16} {body : Fragment}
      (part : capture group body ∈ fragment.subfragments) :
      Owns program fragment first last (.groupStart group.toNat)
  | groupEnd {group : UInt16} {body : Fragment}
      (part : capture group body ∈ fragment.subfragments) :
      Owns program fragment first last (.groupEnd group.toNat)
  | counter {greed : Greed} {min max : UInt32} {body : Fragment} {address : Nat}
      {instruction : Instruction} {register : Register}
      (part : repetition greed min max body ∈ fragment.subfragments)
      (behind : first < address) (before : address < last)
      (found : program.instructions[address]? = some instruction)
      (issued : (repetition greed min max body).Issues program instruction)
      (writes : instruction.Writes register) : Owns program fragment first last register

theorem owns_of_writesBetween {closing : Nat} (inside : closing ≤ last)
    (placed : fragment.Placed program direction (first + 1) closing floor)
    (written : program.WritesBetween first closing register) :
    fragment.Owns program first last register := by
  rcases written with ⟨address, instruction, behind, before, found, writes⟩
  have within := Nat.lt_of_lt_of_le before inside
  have all : fragment.Throughout (IssuesOnly program fun instruction =>
      ∃ part ∈ fragment.subfragments, part.Issues program instruction) :=
    fun part member instruction issued => ⟨part, member, issued⟩
  rcases between_of_placed all _ _ _ _ placed address instruction behind before found with
    ⟨part, member, issued⟩
  cases issued with
  | start => exact .counter member behind within found .start writes
  | decide => exact .counter member behind within found .decide writes
  | again => exact .counter member behind within found .again writes
  | opening =>
      cases writes
      exact .groupStart member
  | closing =>
      cases writes
      exact .groupEnd member
  | _ => cases writes

end Fragment

/-! ## Atomicity -/

namespace Attempt

variable {attempt : Attempt} {fragment body : Fragment} {direction sight entry : Direction}
  {granularity : Granularity} {pusher arrival : State} {after floor : Nat} {negated : Bool}
  {label : Label}

section

variable [CharacterData]

/-- After a lookaround with this body everything is as it was before, except for the
registers of the body if the lookaround is not negated. -/
structure AsBefore (attempt : Attempt) (body : Fragment) (negated : Bool)
    (pusher arrival : State) : Prop where
  position : arrival.position = pusher.position
  saves : arrival.saves = pusher.saves
  journal : negated = true → arrival.journal = pusher.journal
  registers : ∀ register,
    ¬body.Owns attempt.program pusher.address arrival.address register →
      arrival.journal.held register = pusher.journal.held register

theorem asBefore_of_placed (valid : attempt.program.Valid) (nested : attempt.program.Nested)
    (bounds : attempt.Bounds pusher) (fits : pusher.Fits attempt.program)
    (placed : (Fragment.lookaround sight negated body).Placed attempt.program direction
      pusher.address after floor)
    (comes : attempt.ComesTo after pusher arrival) :
    attempt.AsBefore body negated pusher arrival := by
  rcases Fragment.encloses_of_placed nested placed with ⟨middle, label, encloses, leaves, inner⟩
  have returned := returned_of_comesTo valid nested bounds fits encloses leaves comes
  have arrives : arrival.address = after := by
    rcases comes with ⟨_, -, arrives, -⟩
    exact arrives
  have behind := leaves.behind
  refine ⟨returned.position, returned.saves, ?_, fun register foreign => ?_⟩
  · rintro rfl
    exact returned.journal rfl
  · apply returned.registers register
    intro written
    apply foreign
    exact Fragment.owns_of_writesBetween (by omega) inner written

/-- Whatever marked save point an attempt at a compiled program pushes, it enters one of
the lookarounds of the fragment. When the machine comes to the end of that lookaround
without a return to a save point from before, it is at the same position and has the same
save points. After a negative lookaround it has the same journal as well, after a positive
one only registers of groups and counters in its body may have changed. -/
theorem lookaround_asBefore
    (compiled : fragment.compile entry granularity = .ok attempt.program)
    (admitted : attempt.Admitted) (left : State)
    (path : attempt.Reaches (attempt.setOut left) pusher)
    (found : attempt.program.instructions[pusher.address]? = some (.save label)) :
    ∃ sight negated body direction after floor,
      Fragment.lookaround sight negated body ∈ fragment.subfragments ∧
        (Fragment.lookaround sight negated body).Placed attempt.program direction
          pusher.address after floor ∧
          ∀ arrival, attempt.ComesTo after pusher arrival →
            attempt.AsBefore body negated pusher arrival := by
  have valid := (Fragment.compiles compiled).valid
  have nested := Fragment.nested_of_compile compiled
  have start := Bounds.setOut valid admitted left
  have bounds := start.reaches valid path
  have fits := fits_reaches valid nested start (fits_setOut attempt left) path
  rcases Fragment.placed_of_compile compiled with ⟨last, placed, ends, size⟩
  have inside : pusher.address < last := by
    rcases Array.getElem?_eq_some_iff.mp found with ⟨inside, -⟩
    refine Nat.lt_of_le_of_ne (by omega) fun here => ?_
    rw [here, ends] at found
    cases found
  rcases Fragment.marks_of_placed attempt.program fragment _ _ _ _ placed _ _
    (Nat.zero_le _) inside found label rfl with
    ⟨sight, negated, body, direction, first, after, floor, member, placed, opens⟩
  have same : first = pusher.address := by
    rcases nested _ _ found with ⟨⟨goal, bound, -⟩, -⟩
    exact nested.save_unique found bound opens bound
  subst same
  exact ⟨sight, negated, body, direction, after, floor, member, placed, fun arrival comes =>
    asBefore_of_placed valid nested bounds fits placed comes⟩

def peekedLetter : Fragment :=
  .sequence [.lookaround .forward false (.capture 1 (.literal #[0x61] .none)),
    .literal #[0x61] .none]

def peeker : Attempt where
  program :=
    { instructions := #[.save ⟨0⟩, .beginCapture 1, .matchString .forward 0 1 false false,
        .endCapture 1, .clearThrough ⟨0⟩ true, .jump ⟨1⟩, .fail,
        .matchString .forward 1 1 false false, .accept]
      targets := #[some 6, some 7]
      captureCount := 2
      data := #[0x61, 0x61] }
  subject := .whole (.byUnits #[0x61]) .codePoint
  start := 0
  budget := 0

end

open scoped Repertoire in
theorem peeker_asBefore :
    ∃ arrival, peeker.ComesTo 7 (peeker.setOut {}) arrival ∧
      arrival.journal.spanOf 1 = some ⟨0, 1⟩ ∧
        peeker.AsBefore (.capture 1 (.literal #[0x61] .none)) false (peeker.setOut {}) arrival := by
  have compiled : peekedLetter.compile .forward .codePoint = .ok peeker.program := by
    cbv
  have admitted : peeker.Admitted := ⟨rfl, rfl, fun clusters => by cases clusters⟩
  let marked : SaveStack := .push .empty ⟨6, 0, 0, true⟩
  let opened := (Journal.new 2 0).setStart 1 (some 0)
  let closed := opened.setEnd 1 (some 1)
  have entered : peeker.Next (peeker.setOut {}) ⟨1, 0, 1, marked, .new 2 0⟩ := rfl
  have began : peeker.Next ⟨1, 0, 1, marked, .new 2 0⟩ ⟨2, 0, 2, marked, opened⟩ := rfl
  have passed : peeker.Next ⟨2, 0, 2, marked, opened⟩ ⟨3, 1, 3, marked, opened⟩ := by cbv
  have ended : peeker.Next ⟨3, 1, 3, marked, opened⟩ ⟨4, 1, 4, marked, closed⟩ := rfl
  have committed : peeker.Next ⟨4, 1, 4, marked, closed⟩ ⟨5, 0, 5, .empty, closed⟩ := rfl
  have jumped : peeker.Next ⟨5, 0, 5, .empty, closed⟩ ⟨7, 0, 6, .empty, closed⟩ := rfl
  have forced : ¬peeker.Backtracks ⟨5, 0, 5, .empty, closed⟩ ⟨7, 0, 6, .empty, closed⟩ := by
    intro back
    rcases back with ⟨-, _, _, found, fails, -⟩
    cases found
    cases fails
  have above {address position steps : Nat} {journal : Journal} {next : State}
      (step : peeker.Next ⟨address, position, steps, marked, journal⟩ next) :
      peeker.StaysAbove .empty ⟨address, position, steps, marked, journal⟩ next :=
    ⟨step, fun _ => Nat.zero_lt_one⟩
  have comes : peeker.ComesTo 7 (peeker.setOut {}) ⟨7, 0, 6, .empty, closed⟩ :=
    ⟨_, entered, rfl, .tail (.tail (.tail (.tail (.tail .refl ⟨above began, by decide⟩)
      ⟨above passed, by decide⟩) ⟨above ended, by decide⟩) ⟨above committed, by decide⟩)
      ⟨⟨jumped, fun back => absurd back forced⟩, by decide⟩⟩
  rcases lookaround_asBefore compiled admitted {} .refl rfl with
    ⟨sight, negated, body, direction, after, floor, member, placed, leaves⟩
  have only : Fragment.lookaround sight negated body =
      .lookaround .forward false (.capture 1 (.literal #[0x61] .none)) := by
    simpa [peekedLetter, Fragment.subfragments, Fragment.subfragmentsEach] using member
  cases only
  rcases placed with ⟨failure, done, middle, rfl, saved, bound, -⟩
  have saved : some (Instruction.save ⟨0⟩) = some (.save failure) := saved
  cases saved
  have bound : some 6 = some (middle + 2) := bound
  obtain rfl : middle = 4 := by simpa using bound.symm
  exact ⟨_, comes, rfl, leaves _ comes⟩

end Attempt

end RegexMachine
