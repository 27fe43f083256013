import RegexMachine.Proofs.Machine.Residue
import RegexMachine.Proofs.Pattern.Lookarounds
import RegexMachine.Rune.Repertoire

/-! # What a lookaround leaves in the journal

A positive lookaround keeps captures, and it does so by keeping the journal. So whatever
its body has written stays there, the counts and origins of loops as well. Only what a
negative lookaround encloses is taken back before the end is reached. -/

namespace RegexMachine

namespace Fragment

/-! ## Exposed parts -/

mutual

/-- The fragment and those parts of it that are not enclosed in a negative lookaround of
it. -/
def exposed : Fragment → List Fragment
  | sequence parts => sequence parts :: exposedEach parts
  | alternation alternatives => alternation alternatives :: exposedEach alternatives
  | repetition greed min max body => repetition greed min max body :: exposed body
  | capture group body => capture group body :: exposed body
  | lookaround sight false body => lookaround sight false body :: exposed body
  | leaf => [leaf]

def exposedEach : List Fragment → List Fragment
  | [] => []
  | fragment :: rest => exposed fragment ++ exposedEach rest

end

variable {program : Program} {whole fragment body : Fragment} {direction sight : Direction}
  {start first last floor : Nat} {negated : Bool} {register : Register}

theorem mem_exposedEach {fragments : List Fragment} {part : Fragment} :
    part ∈ exposedEach fragments ↔ ∃ fragment ∈ fragments, part ∈ fragment.exposed := by
  induction fragments with
  | nil => simp [exposedEach]
  | cons fragment rest induction => simp [exposedEach, induction]

theorem mem_exposed_self (fragment : Fragment) : fragment ∈ fragment.exposed := by
  cases fragment with
  | lookaround sight negated body => cases negated <;> exact List.mem_cons_self
  | _ => exact List.mem_cons_self

theorem exposed_subset (fragment : Fragment) : fragment.exposed ⊆ fragment.subfragments := by
  have each {fragments : List Fragment}
      (induction : ∀ fragment ∈ fragments, fragment.exposed ⊆ fragment.subfragments) :
      exposedEach fragments ⊆ subfragmentsEach fragments := by
    intro part member
    obtain ⟨fragment, inside, exposed⟩ := mem_exposedEach.mp member
    exact mem_subfragmentsEach.mpr ⟨fragment, inside, induction fragment inside exposed⟩
  induction fragment using Fragment.induct with
  | sequence parts induction => exact List.cons_subset_cons _ (each induction)
  | alternation alternatives induction => exact List.cons_subset_cons _ (each induction)
  | repetition greed min max body induction => exact List.cons_subset_cons _ induction
  | capture group body induction => exact List.cons_subset_cons _ induction
  | lookaround sight negated body induction =>
      cases negated with
      | true => exact List.cons_subset_cons _ (List.nil_subset _)
      | false => exact List.cons_subset_cons _ induction
  | _ => exact List.Subset.refl _

/-! ## Instructions of exposed parts -/

variable [CharacterData]

/-- At the address, the instruction is one that an exposed part of the whole fragment is
emitted as, or a commit that takes back encloses it from behind the start. -/
def ExposedAt (program : Program) (whole : Fragment) (start address : Nat)
    (instruction : Instruction) : Prop :=
  (∃ part ∈ whole.exposed, part.Issues program instruction) ∨
    ∃ opening ∈ program.openSaves address, start ≤ opening ∧ program.Revokes opening

theorem exposedAt_lookaround (nested : program.Nested)
    (within : (lookaround sight negated body).exposed ⊆ whole.exposed)
    (inner : body.exposed ⊆ whole.exposed → ∀ first last, start ≤ first →
      body.Placed program sight first last floor →
        program.Steady (fun _ => ()) (ExposedAt program whole start) first last)
    (behind : start ≤ first)
    (placed : (Fragment.lookaround sight negated body).Placed program direction first last
      floor) : program.Steady (fun _ => ()) (ExposedAt program whole start) first last := by
  refine ruled_lookaround (fun instruction issued address =>
    .inl ⟨_, within (mem_exposed_self _), issued⟩)
    (fun middle label saved bound committed lies => ?_) placed
  cases negated with
  | true =>
      have encloses := nested.encloses saved bound committed
      refine ⟨rfl, fun address after before _ _ => .inr ⟨first, ?_, behind, ?_⟩⟩
      · exact encloses.mem_openSaves after (Nat.le_of_lt before)
      · exact ⟨label, middle, saved, bound, committed⟩
  | false =>
      have inside : body.exposed ⊆ whole.exposed :=
        fun _ member => within (List.mem_cons_of_mem _ member)
      exact inner inside _ _ (Nat.le_succ_of_le behind) lies

theorem exposedAt_of_placed (nested : program.Nested)
    (placed : fragment.Placed program direction first last floor) :
    program.Steady (fun _ => ()) (ExposedAt program fragment first) first last := by
  have each {fragments : List Fragment} (within : exposedEach fragments ⊆ fragment.exposed)
      (part : Fragment) (member : part ∈ fragments) : part.exposed ⊆ fragment.exposed :=
    fun inner inside => within (mem_exposedEach.mpr ⟨part, member, inside⟩)
  have imposes : Imposes program (ExposedAt program fragment first) first
      (fun part => part.exposed ⊆ fragment.exposed) :=
    { issues := fun within issued _ => .inl ⟨_, within (mem_exposed_self _), issued⟩
      sequence := fun within => each fun _ member => within (List.mem_cons_of_mem _ member)
      alternation := fun within => each fun _ member => within (List.mem_cons_of_mem _ member)
      repetition := fun within _ member => within (List.mem_cons_of_mem _ member)
      capture := fun within _ member => within (List.mem_cons_of_mem _ member)
      lookaround := fun within => exposedAt_lookaround nested within }
  exact ruled_of_placed imposes fragment (List.Subset.refl _) _ _ _ _ (Nat.le_refl _) placed

/-! ## Registers that stay written -/

def isCapture : Fragment → Bool
  | capture _ _ => true
  | _ => false

def isRepetition : Fragment → Bool
  | repetition _ _ _ _ => true
  | _ => false

def Counts (program : Program) (fragment : Fragment) (first last : Nat) (register : Register) :
    Prop :=
  (∃ counter, register = .count counter ∨ register = .origin counter) ∧
    ∃ part ∈ fragment.exposed, part.isRepetition = true ∧
      ∃ (address : Nat) (instruction : Instruction), first < address ∧ address < last ∧
        program.instructions[address]? = some instruction ∧
          part.Issues program instruction ∧ instruction.Writes register

theorem counts_of_writesLasting {closing : Nat} (nested : program.Nested)
    (inside : closing ≤ last) (captureless : ∀ part ∈ fragment.subfragments,
      part.isCapture = false)
    (placed : fragment.Placed program direction (first + 1) closing floor)
    (written : program.WritesLasting first closing register) :
    fragment.Counts program first last register := by
  obtain ⟨address, instruction, behind, before, found, writes, lasting⟩ := written
  have exposes := exposedAt_of_placed nested placed
  rcases exposes.keeps address behind before instruction found with
    ⟨part, exposed, issued⟩ | ⟨opening, opened, later, revokes⟩
  · have within := Nat.lt_of_lt_of_le before inside
    cases issued with
    | start =>
        refine ⟨?_, _, exposed, rfl, address, _, behind, within, found, .start, writes⟩
        cases writes with
        | startCount => exact ⟨_, .inl rfl⟩
        | startOrigin => exact ⟨_, .inr rfl⟩
    | decide =>
        refine ⟨?_, _, exposed, rfl, address, _, behind, within, found, .decide, writes⟩
        cases writes with
        | origin => exact ⟨_, .inr rfl⟩
    | again =>
        refine ⟨?_, _, exposed, rfl, address, _, behind, within, found, .again, writes⟩
        cases writes with
        | count => exact ⟨_, .inl rfl⟩
    | opening => cases captureless _ (fragment.exposed_subset exposed)
    | closing => cases captureless _ (fragment.exposed_subset exposed)
    | _ => cases writes
  · exact absurd revokes (lasting opening opened later)

end Fragment

/-! ## The height behind a lookaround -/

namespace Attempt

variable {attempt : Attempt} {fragment body : Fragment} {direction sight entry : Direction}
  {granularity : Granularity} {pusher arrival : State} {after floor : Nat} {negated : Bool}
  {label : Label}

section

variable [CharacterData]

theorem exists_lookaround (compiled : fragment.compile entry granularity = .ok attempt.program)
    (nested : attempt.program.Nested)
    (found : attempt.program.instructions[pusher.address]? = some (.save label)) :
    ∃ sight negated body direction after floor,
      Fragment.lookaround sight negated body ∈ fragment.subfragments ∧
        (Fragment.lookaround sight negated body).Placed attempt.program direction
          pusher.address after floor := by
  obtain ⟨last, placed, ends, size⟩ := Fragment.placed_of_compile compiled
  have inside : pusher.address < last := by
    obtain ⟨inside, -⟩ := Array.getElem?_eq_some_iff.mp found
    refine Nat.lt_of_le_of_ne (by omega) fun here => ?_
    rw [here, ends] at found
    cases found
  obtain ⟨sight, negated, body, direction, first, after, floor, member, placed, opens⟩ :=
    Fragment.marks_of_placed attempt.program fragment _ _ _ _ placed _ _ (Nat.zero_le _) inside
      found label rfl
  obtain ⟨⟨goal, bound, -⟩, -⟩ := nested _ _ found
  obtain rfl := nested.save_unique found bound opens bound
  exact ⟨sight, negated, body, direction, after, floor, member, placed⟩

/-- Whatever marked save point an attempt at a compiled program pushes, it enters one of the
lookarounds of the fragment. If nothing is captured in there, the journal holds behind the
lookaround what it held before, and above that only changes of counts and origins for the
repetitions that no negative lookaround encloses. So its height is the same behind every
negative lookaround and behind a positive one without such a repetition. -/
theorem lookaround_height (compiled : fragment.compile entry granularity = .ok attempt.program)
    (admitted : attempt.Admitted) (left : State)
    (path : attempt.Reaches (attempt.setOut left) pusher)
    (found : attempt.program.instructions[pusher.address]? = some (.save label)) :
    ∃ sight negated body direction after floor,
      Fragment.lookaround sight negated body ∈ fragment.subfragments ∧
        (Fragment.lookaround sight negated body).Placed attempt.program direction
          pusher.address after floor ∧
          ((∀ part ∈ body.subfragments, part.isCapture = false) →
            ∀ arrival, attempt.ComesTo after pusher arrival →
              arrival.journal.AddsOnly pusher.journal
                  (body.Counts attempt.program pusher.address after) ∧
                ((negated = true ∨ ∀ part ∈ body.exposed, part.isRepetition = false) →
                  arrival.journal.height = pusher.journal.height)) := by
  have valid := (Fragment.compiles compiled).valid
  have nested := Fragment.nested_of_compile compiled
  have start := Bounds.setOut valid admitted left
  have bounds := start.reaches valid path
  have fits := fits_reaches valid nested start (fits_setOut attempt left) path
  obtain ⟨sight, negated, body, direction, after, floor, member, placed⟩ :=
    exists_lookaround compiled nested found
  refine ⟨sight, negated, body, direction, after, floor, member, placed,
    fun captureless arrival comes => ?_⟩
  obtain ⟨middle, label, encloses, leaves, inner⟩ := Fragment.encloses_of_placed nested placed
  have behind := leaves.behind
  have adds : arrival.journal.AddsOnly pusher.journal
      (body.Counts attempt.program pusher.address after) :=
    (leaves_of_comesTo valid nested bounds fits encloses leaves comes).imp fun register =>
      Fragment.counts_of_writesLasting nested (by omega) captureless inner
  refine ⟨adds, fun still => ?_⟩
  rcases still with rfl | still
  · have returned := returned_of_comesTo valid nested bounds fits encloses leaves comes
    rw [returned.journal rfl]
  · have same := adds.changes_eq fun register ⟨_, part, exposed, repeats, _⟩ => by
      rw [still part exposed] at repeats
      cases repeats
    rw [arrival.journal.height_eq, pusher.journal.height_eq, same]

def deniedLetter : Fragment :=
  .lookaround .forward false (.lookaround .forward true
    (.sequence [.repetition .greedy 0 Fragment.unbounded (.any .none), .literal #[0x61] .none]))

def denier : Attempt where
  program :=
    { instructions := #[.save ⟨0⟩, .save ⟨2⟩, .repeatStart 0,
        .quantify .greedy 0 0xFFFFFFFF 0 ⟨4⟩, .matchAny .forward false false, .repeatEnd 0 ⟨3⟩,
        .matchString .forward 0 1 false false, .clearThrough ⟨2⟩ false, .fail,
        .clearThrough ⟨0⟩ true, .jump ⟨1⟩, .fail, .accept]
      targets := #[some 11, some 12, some 9, some 3, some 6]
      counterCount := 1
      data := #[0x61] }
  subject := .whole (.byUnits #[]) .codePoint
  start := 0
  budget := 0

end

open scoped Repertoire in
theorem denier_height :
    ∃ arrival, denier.ComesTo 12 (denier.setOut {}) arrival ∧
      arrival.steps = 8 ∧ arrival.journal.height = (denier.setOut {}).journal.height := by
  have compiled : deniedLetter.compile .forward .codePoint = .ok denier.program := by cbv
  have admitted : denier.Admitted := ⟨rfl, rfl, fun clusters => by cases clusters⟩
  let outer : SaveStack := .push .empty ⟨11, 0, 0, true⟩
  let inner : SaveStack := outer.push ⟨9, 0, 0, true⟩
  let tried : SaveStack := inner.push ⟨6, 0, 2, false⟩
  let started := (Journal.new 1 1).startCounter 0
  let begun := started.setOrigin 0 (some 0)
  have entered : denier.Next (denier.setOut {}) ⟨1, 0, 1, outer, .new 1 1⟩ := rfl
  have denied : denier.Next ⟨1, 0, 1, outer, .new 1 1⟩ ⟨2, 0, 2, inner, .new 1 1⟩ := rfl
  have starts : denier.Next ⟨2, 0, 2, inner, .new 1 1⟩ ⟨3, 0, 3, inner, started⟩ := by cbv
  have begins : denier.Next ⟨3, 0, 3, inner, started⟩ ⟨4, 0, 4, tried, begun⟩ := by cbv
  have ended : denier.Next ⟨4, 0, 4, tried, begun⟩ ⟨6, 0, 5, inner, started⟩ := by cbv
  have missed : denier.Next ⟨6, 0, 5, inner, started⟩ ⟨9, 0, 6, outer, .new 1 1⟩ := by cbv
  have committed : denier.Next ⟨9, 0, 6, outer, .new 1 1⟩ ⟨10, 0, 7, .empty, .new 1 1⟩ := rfl
  have jumped : denier.Next ⟨10, 0, 7, .empty, .new 1 1⟩ ⟨12, 0, 8, .empty, .new 1 1⟩ := rfl
  have forced : ¬denier.Backtracks ⟨10, 0, 7, .empty, .new 1 1⟩ ⟨12, 0, 8, .empty, .new 1 1⟩ := by
    rintro ⟨-, _, _, found, fails, -⟩
    cases found
    cases fails
  have above {state next : State} (step : denier.Next state next) (saved : 0 < state.saves.size) :
      denier.StaysAbove .empty state next := ⟨step, fun _ => saved⟩
  have comes : denier.ComesTo 12 (denier.setOut {}) ⟨12, 0, 8, .empty, .new 1 1⟩ :=
    ⟨_, entered, rfl, .tail (.tail (.tail (.tail (.tail (.tail (.tail .refl
      ⟨above denied (by decide), by decide⟩) ⟨above starts (by decide), by decide⟩)
      ⟨above begins (by decide), by decide⟩) ⟨above ended (by decide), by decide⟩)
      ⟨above missed (by decide), by decide⟩) ⟨above committed (by decide), by decide⟩)
      ⟨⟨jumped, fun back => absurd back forced⟩, by decide⟩⟩
  obtain ⟨sight, negated, body, direction, after, floor, member, placed, leaves⟩ :=
    lookaround_height compiled admitted {} .refl rfl
  cases negated with
  | true =>
      obtain ⟨done, middle, rfl, saved, bound, -, committed, -⟩ := placed
      have saved : some (Instruction.save ⟨0⟩) = some (.save done) := saved
      cases saved
      have bound : some 11 = some (middle + 2) := bound
      obtain rfl : middle = 9 := by simpa using bound.symm
      cases committed
  | false =>
      have outermost : Fragment.lookaround sight false body = deniedLetter := by
        simpa [deniedLetter, Fragment.subfragments, Fragment.subfragmentsEach] using member
      cases outermost
      obtain ⟨failure, done, middle, rfl, saved, bound, -⟩ := placed
      have saved : some (Instruction.save ⟨0⟩) = some (.save failure) := saved
      cases saved
      have bound : some 11 = some (middle + 2) := bound
      obtain rfl : middle = 9 := by simpa using bound.symm
      exact ⟨_, comes, rfl, (leaves (by decide) _ comes).2 (.inr (by decide))⟩

def peekedLoop : Fragment :=
  .lookaround .forward false (.repetition .greedy 0 Fragment.unbounded (.any .none))

def loopPeeker : Attempt where
  program :=
    { instructions := #[.save ⟨0⟩, .repeatStart 0, .quantify .greedy 0 0xFFFFFFFF 0 ⟨3⟩,
        .matchAny .forward false false, .repeatEnd 0 ⟨2⟩, .clearThrough ⟨0⟩ true, .jump ⟨1⟩,
        .fail, .accept]
      targets := #[some 7, some 8, some 2, some 5]
      counterCount := 1 }
  subject := .whole (.byUnits #[]) .codePoint
  start := 0
  budget := 0

open scoped Repertoire in
/-- Behind a positive lookaround the changes of its loop are still in the journal, though
nothing is captured and nothing has been passed. -/
theorem loopPeeker_grows :
    peekedLoop.compile .forward .codePoint = .ok loopPeeker.program ∧
      loopPeeker.Admitted ∧ (∀ part ∈ peekedLoop.subfragments, part.isCapture = false) ∧
        ∃ arrival, loopPeeker.ComesTo 8 (loopPeeker.setOut {}) arrival ∧
          arrival.journal.height = 2 ∧ (loopPeeker.setOut {}).journal.height = 0 := by
  refine ⟨by cbv, ⟨rfl, rfl, fun clusters => by cases clusters⟩, by decide, ?_⟩
  let marked : SaveStack := .push .empty ⟨7, 0, 0, true⟩
  let tried : SaveStack := marked.push ⟨5, 0, 2, false⟩
  let started := (Journal.new 1 1).startCounter 0
  let begun := started.setOrigin 0 (some 0)
  have entered : loopPeeker.Next (loopPeeker.setOut {}) ⟨1, 0, 1, marked, .new 1 1⟩ := rfl
  have starts : loopPeeker.Next ⟨1, 0, 1, marked, .new 1 1⟩ ⟨2, 0, 2, marked, started⟩ := by cbv
  have begins : loopPeeker.Next ⟨2, 0, 2, marked, started⟩ ⟨3, 0, 3, tried, begun⟩ := by cbv
  have ended : loopPeeker.Next ⟨3, 0, 3, tried, begun⟩ ⟨5, 0, 4, marked, started⟩ := by cbv
  have committed : loopPeeker.Next ⟨5, 0, 4, marked, started⟩ ⟨6, 0, 5, .empty, started⟩ := rfl
  have jumped : loopPeeker.Next ⟨6, 0, 5, .empty, started⟩ ⟨8, 0, 6, .empty, started⟩ := rfl
  have forced : ¬loopPeeker.Backtracks ⟨6, 0, 5, .empty, started⟩ ⟨8, 0, 6, .empty, started⟩ := by
    rintro ⟨-, _, _, found, fails, -⟩
    cases found
    cases fails
  have above {state next : State} (step : loopPeeker.Next state next)
      (saved : 0 < state.saves.size) : loopPeeker.StaysAbove .empty state next :=
    ⟨step, fun _ => saved⟩
  have comes : loopPeeker.ComesTo 8 (loopPeeker.setOut {}) ⟨8, 0, 6, .empty, started⟩ :=
    ⟨_, entered, rfl, .tail (.tail (.tail (.tail (.tail .refl
      ⟨above starts (by decide), by decide⟩) ⟨above begins (by decide), by decide⟩)
      ⟨above ended (by decide), by decide⟩) ⟨above committed (by decide), by decide⟩)
      ⟨⟨jumped, fun back => absurd back forced⟩, by decide⟩⟩
  exact ⟨_, comes, rfl, rfl⟩

end Attempt

end RegexMachine
