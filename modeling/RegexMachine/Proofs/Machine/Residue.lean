import RegexMachine.Proofs.Machine.Atomicity

/-! # What stays in the journal

A commit that keeps captures takes no change back, so what has been written since its
marked save point was pushed stays in the journal. A commit that does not keep them takes
back what has been written within it: as long as its save point is on the stack all of
that lies above it, and when the save point is taken away the journal is rolled back. -/

namespace RegexMachine

/-! ## Changes above a height -/

theorem Change.exists_taken (count : Nat) (changes : List Change) (registers : Registers) :
    ∃ taken, changes = taken ++ (takeBack count changes registers).1 := by
  induction count generalizing changes registers with
  | zero => exact ⟨[], rfl⟩
  | succ count induction =>
      cases changes with
      | nil => exact ⟨[], rfl⟩
      | cons change older =>
          obtain ⟨taken, shape⟩ := induction older (registers.set change.slot change.replaced)
          exact ⟨change :: taken, congrArg (change :: ·) shape⟩

def Change.Of (change : Change) (groups : Nat) (kept : Register → Prop) : Prop :=
  ∃ register, kept register ∧ change.slot = register.slot groups

theorem Change.Of.imp {change : Change} {groups : Nat} {kept other : Register → Prop}
    (weaker : ∀ register, kept register → other register) (changes : change.Of groups kept) :
    change.Of groups other :=
  Exists.imp (fun register => And.imp_left (weaker register)) changes

namespace Journal

/-- The newer journal holds the changes of the older one and above these only changes of
such registers. -/
def AddsOnly (newer older : Journal) (kept : Register → Prop) : Prop :=
  ∃ added, newer.changes = added ++ older.changes ∧
    ∀ change ∈ added, change.Of newer.groups kept

theorem AddsOnly.refl (journal : Journal) (kept : Register → Prop) :
    journal.AddsOnly journal kept :=
  ⟨[], rfl, nofun⟩

theorem AddsOnly.imp {newer older : Journal} {kept other : Register → Prop}
    (weaker : ∀ register, kept register → other register) (adds : newer.AddsOnly older kept) :
    newer.AddsOnly older other := by
  obtain ⟨added, shape, each⟩ := adds
  exact ⟨added, shape, fun change member => (each change member).imp weaker⟩

theorem AddsOnly.changes_eq {newer older : Journal} {kept : Register → Prop}
    (adds : newer.AddsOnly older kept) (none : ∀ register, ¬kept register) :
    newer.changes = older.changes := by
  obtain ⟨added, shape, each⟩ := adds
  cases added with
  | nil => exact shape
  | cons change more =>
      obtain ⟨register, kept, -⟩ := each change List.mem_cons_self
      exact absurd kept (none register)

/-- Every change above the height is of a kept register or lies above one of the save
points. -/
def Sheltered (journal : Journal) (height : Nat) (kept : Register → Prop)
    (shelters : SavePoint → Prop) : Prop :=
  ∀ newest change below, journal.changes = newest ++ change :: below → height ≤ below.length →
    change.Of journal.groups kept ∨ ∃ save, shelters save ∧ save.height ≤ below.length

namespace Sheltered

variable {journal : Journal} {height : Nat} {kept : Register → Prop}
  {shelters others : SavePoint → Prop}

theorem top (journal : Journal) (kept : Register → Prop) (shelters : SavePoint → Prop) :
    journal.Sheltered journal.height kept shelters := by
  intro newest change below shape above
  have lengths := congrArg List.length shape
  rw [List.length_append, List.length_cons, ← journal.height_eq] at lengths
  omega

theorem mono (sheltered : journal.Sheltered height kept shelters)
    (within : ∀ save, shelters save → others save) : journal.Sheltered height kept others := by
  intro newest change below shape above
  refine (sheltered newest change below shape above).imp_right fun ⟨save, member, lower⟩ => ?_
  exact ⟨save, within save member, lower⟩

theorem write (sheltered : journal.Sheltered height kept shelters) {register : Register}
    (allowed : kept register ∨ ∃ save, shelters save ∧ save.height ≤ journal.height)
    (content : Option Nat) : (journal.write register content).Sheltered height kept shelters := by
  intro newest change below shape above
  cases newest with
  | nil =>
      obtain ⟨rfl, rfl⟩ := List.cons.inj shape
      rw [← journal.height_eq]
      exact allowed.imp_left fun kept => ⟨register, kept, rfl⟩
  | cons first newest => exact sheltered newest change below (List.cons.inj shape).2 above

theorem rollBack (sheltered : journal.Sheltered height kept shelters) {target : Nat}
    (lower : ∀ save, shelters save → save.height < target → others save) :
    (journal.rollBack target).Sheltered height kept others := by
  intro newest change below shape above
  obtain ⟨taken, whole⟩ :=
    Change.exists_taken (journal.height - target) journal.changes journal.registers
  have rest : journal.changes = taken ++ (journal.rollBack target).changes := whole
  rw [shape, ← List.append_assoc] at rest
  rw [groups_rollBack]
  refine (sheltered _ change below rest above).imp_right fun ⟨save, shelter, under⟩ => ?_
  have left := (journal.rollBack target).height_eq
  rw [journal.rollBack_height, shape, List.length_append, List.length_cons] at left
  exact ⟨save, lower save shelter (by omega), under⟩

theorem addsOnly {older : Journal} (sheltered : journal.Sheltered older.height kept shelters)
    (none : ∀ save, ¬shelters save) (extension : journal.Extends older) :
    journal.AddsOnly older kept := by
  obtain ⟨added, shape⟩ :=
    Change.exists_taken (journal.height - older.height) journal.changes journal.registers
  have rest : journal.changes = added ++ (journal.rollBack older.height).changes := shape
  rw [extension] at rest
  refine ⟨added, rest, fun change member => ?_⟩
  obtain ⟨newest, behind, rfl⟩ := List.append_of_mem member
  rw [List.append_assoc, List.cons_append] at rest
  have above : older.height ≤ (behind ++ older.changes).length := by
    rw [List.length_append, older.height_eq]
    exact Nat.le_add_left _ _
  exact (sheltered newest change _ rest above).resolve_right
    fun ⟨save, shelter, _⟩ => none save shelter

end Sheltered

end Journal

/-! ## Commits that take back -/

namespace Program

def Revokes (program : Program) (opening : Nat) : Prop :=
  ∃ label closing, program.instructions[opening]? = some (.save label) ∧
    program.target? label = some (closing + 2) ∧
      program.instructions[closing]? = some (.clearThrough label false)

/-- Some instruction strictly between the addresses writes the register, and no commit
within them takes that back. -/
def WritesLasting (program : Program) (first last : Nat) (register : Register) : Prop :=
  ∃ address instruction, first < address ∧ address < last ∧
    program.instructions[address]? = some instruction ∧ instruction.Writes register ∧
      ∀ opening ∈ program.openSaves address, first < opening → ¬program.Revokes opening

variable {program : Program} {opening address : Nat} {label other : Label} {goal : Nat}
  {keep kept : Bool} {points below : List SavePoint} {mark : SavePoint}

theorem Nested.keep_unique (nested : program.Nested) {closing : Nat}
    (found : program.instructions[address]? = some (.clearThrough label keep))
    (bound : program.target? label = some goal)
    (again : program.instructions[closing]? = some (.clearThrough other kept))
    (same : program.target? other = some goal) : keep = kept := by
  obtain ⟨opening, opens, -⟩ := nested _ _ found
  obtain ⟨-, ending, keeps, closes, resumes, -⟩ := nested _ _ opens
  rw [bound, Option.some.injEq] at resumes
  subst resumes
  have encloses := nested.encloses opens bound closes
  obtain rfl := encloses.closing_unique nested found bound
  obtain rfl := encloses.closing_unique nested again same
  rw [found] at again
  cases again
  rfl

theorem Encloses.mem_openSaves {closing : Nat}
    (encloses : program.Encloses opening closing label keep) (behind : opening < address)
    (before : address ≤ closing) : opening ∈ program.openSaves address := by
  by_contra absent
  apply Program.not_mem_openSaves absent behind before
  rw [encloses.enclosed]
  exact List.mem_cons_self

theorem Fits.exists_above (fits : program.Fits (program.openSaves address)
      (points ++ mark :: below)) (nested : program.Nested) (marker : mark.marker = true)
    {pushing : Nat} (pushed : program.instructions[pushing]? = some (.save label))
    (bound : program.target? label = some mark.resume)
    (inside : opening ∈ program.openSaves address) (behind : pushing < opening) :
    ∃ save ∈ points, save.marker = true ∧ ∃ other,
      program.instructions[opening]? = some (.save other) ∧
        program.target? other = some save.resume := by
  generalize program.openSaves address = opens at fits inside
  induction points generalizing opens with
  | nil =>
      cases fits with
      | plain unmarked => exact absurd marker (Bool.eq_false_iff.mp unmarked)
      | marked _ found resumes _ =>
          obtain rfl := nested.save_unique pushed bound found resumes
          rcases List.mem_cons.mp inside with rfl | inside
          · exact absurd behind (Nat.lt_irrefl _)
          · have before := lt_of_mem_openSaves inside
            omega
  | cons newest points induction =>
      cases fits with
      | plain _ _ fits =>
          obtain ⟨save, member, rest⟩ := induction _ fits inside
          exact ⟨save, List.mem_cons_of_mem _ member, rest⟩
      | marked newestMarker found resumes fits =>
          rcases List.mem_cons.mp inside with rfl | inside
          · exact ⟨newest, List.mem_cons_self, newestMarker, _, found, resumes⟩
          · obtain ⟨save, member, rest⟩ := induction _ fits inside
            exact ⟨save, List.mem_cons_of_mem _ member, rest⟩

end Program

def SavePoint.Revoked (save : SavePoint) (program : Program) : Prop :=
  save.marker = true ∧ ∃ (closing : Nat) (label : Label),
    program.instructions[closing]? = some (.clearThrough label false) ∧
      program.target? label = some save.resume

namespace Attempt

variable {attempt : Attempt} {state next pusher arrival : State} {closing last : Nat}
  {label : Label} {keep : Bool}

/-- Apart from what is written lastingly before the commit, the journal holds only changes
of the older one. -/
def Leaves (attempt : Attempt) (pusher : State) (closing : Nat) (journal : Journal) : Prop :=
  journal.AddsOnly pusher.journal (attempt.program.WritesLasting pusher.address closing)

/-- The save point of the state `pusher` is on the stack, and what has been written since
then and does not last lies above save points that a commit is to roll back to. -/
def Shelters (attempt : Attempt) (pusher : State) (closing : Nat) (state : State) : Prop :=
  ∃ above, state.saves.points = above ++ pusher.mark (closing + 2) :: pusher.saves.points ∧
    state.journal.Sheltered pusher.journal.height
      (attempt.program.WritesLasting pusher.address closing) fun save =>
        save ∈ above ∧ save.Revoked attempt.program

namespace Shelters

theorem allowed {above : List SavePoint} {instruction : Instruction} {register : Register}
    (shape : state.saves.points = above ++ pusher.mark (closing + 2) :: pusher.saves.points)
    (inside : attempt.Inside pusher closing state) (nested : attempt.program.Nested)
    (bounds : attempt.Bounds state) (fits : state.Fits attempt.program)
    (encloses : attempt.program.Encloses pusher.address closing label keep)
    (found : attempt.program.instructions[state.address]? = some instruction)
    (writes : instruction.Writes register) :
    attempt.program.WritesLasting pusher.address closing register ∨
      ∃ save, (save ∈ above ∧ save.Revoked attempt.program) ∧
        save.height ≤ state.journal.height := by
  obtain ⟨behind, before⟩ := inside.address nested fits encloses
  have earlier : state.address < closing := by
    refine Nat.lt_of_le_of_ne before fun here => ?_
    rw [here, encloses.closes] at found
    cases found
    cases writes
  by_cases sheltered : ∃ opening ∈ attempt.program.openSaves state.address,
      pusher.address < opening ∧ attempt.program.Revokes opening
  · right
    obtain ⟨opening, opened, later, other, ending, saved, resumes, committed⟩ := sheltered
    rw [State.Fits, shape] at fits
    obtain ⟨save, member, marker, again, pushed, bound⟩ :=
      fits.exists_above nested rfl encloses.opens encloses.bound opened later
    rw [saved] at pushed
    cases pushed
    refine ⟨save, ⟨member, marker, ending, other, committed, bound⟩, bounds.height save ?_⟩
    rw [shape]
    exact List.mem_append_left _ member
  · left
    exact ⟨_, instruction, behind, earlier, found, writes,
      fun opening opened later revokes => sheltered ⟨opening, opened, later, revokes⟩⟩

theorem mem_of_height_lt {above own left : List SavePoint} {newest save : SavePoint}
    (contains : attempt.Contains state) (split : above = own ++ newest :: left)
    {below : List SavePoint} (shape : state.saves.points = above ++ below)
    (member : save ∈ above) (lower : save.height < newest.height) : save ∈ left := by
  have heights := contains.heights
  rw [shape, split, List.append_assoc] at heights
  have higher := (List.pairwise_append.mp heights).2.2
  rw [split] at member
  rcases List.mem_append.mp member with before | behind
  · have := higher save before newest List.mem_cons_self
    omega
  · rcases List.mem_cons.mp behind with rfl | behind
    · exact absurd lower (Nat.lt_irrefl _)
    · exact behind

theorem leaves_rolled (inside : attempt.Inside pusher closing state) :
    attempt.Leaves pusher closing
      (state.journal.rollBack (pusher.mark (closing + 2)).height) := by
  have rolled : state.journal.rollBack (pusher.mark (closing + 2)).height = pusher.journal :=
    inside.extension
  rw [rolled]
  exact .refl _ _

/-- A commit takes unmarked save points away and a marked one. If it keeps captures, what
it finds is not what another commit is to roll back to. -/
theorem commit {target : Label} {goal : Nat} {save : SavePoint} {rest : SaveStack} {keeps : Bool}
    (shelters : attempt.Shelters pusher closing state)
    (inside : attempt.Inside pusher closing state) (nested : attempt.program.Nested)
    (bounds : attempt.Bounds state) (fits : state.Fits attempt.program)
    (found : attempt.program.instructions[state.address]? = some (.clearThrough target keeps))
    (bound : attempt.program.target? target = some goal)
    (committed : state.saves.commitTo? goal = some (save, rest)) (saves : next.saves = rest)
    (journal : next.journal =
      if keeps then state.journal else state.journal.rollBack save.height) :
    attempt.Shelters pusher closing next ∨
      next.saves = pusher.saves ∧ attempt.Leaves pusher closing next.journal := by
  obtain ⟨above, shape, sheltered⟩ := shelters
  obtain ⟨-, -, -, resumes⟩ := SaveStack.points_of_commitTo? committed
  obtain ⟨own, points, unmarked⟩ := fits.commit_shape nested found bound committed
  rw [shape] at points
  have plain {other : SavePoint} (member : other ∈ own) : ¬other.Revoked attempt.program :=
    fun revoked => absurd revoked.1 (Bool.eq_false_iff.mp (unmarked other member))
  rcases SavePoint.found_of_unmarked points unmarked rfl with ⟨left, behind⟩ | ⟨rfl, same⟩
  · rw [behind, ← List.cons_append, ← List.append_assoc] at points
    have split := List.append_cancel_right points
    refine .inl ⟨left, by rw [saves, behind], ?_⟩
    cases keeps with
    | true =>
        have stays : next.journal = state.journal := journal
        rw [stays]
        refine sheltered.mono fun other ⟨member, revoked⟩ => ⟨?_, revoked⟩
        rw [split] at member
        rcases List.mem_append.mp member with before | after
        · exact absurd revoked (plain before)
        · refine (List.mem_cons.mp after).resolve_left fun here => ?_
          obtain ⟨-, ending, others, closes, leads⟩ := revoked
          rw [here, resumes] at leads
          cases nested.keep_unique found bound closes leads
    | false =>
        have rolled : next.journal = state.journal.rollBack save.height := journal
        rw [rolled]
        refine sheltered.rollBack fun other ⟨member, revoked⟩ lower => ⟨?_, revoked⟩
        exact mem_of_height_lt bounds.toContains split shape member lower
  · rw [same] at points
    have split := List.append_cancel_right points
    refine .inr ⟨saves.trans (SaveStack.eq_of_points same), ?_⟩
    rw [journal]
    cases keeps with
    | true =>
        refine sheltered.addsOnly (fun other ⟨member, revoked⟩ => ?_) inside.extension
        rw [split] at member
        exact plain member revoked
    | false => exact leaves_rolled inside

theorem backtrack {popped : SavePoint} {rest : SaveStack}
    (shelters : attempt.Shelters pusher closing state)
    (inside : attempt.Inside pusher closing state) (bounds : attempt.Bounds state)
    (points : state.saves.points = popped :: rest.points) (saves : next.saves = rest)
    (journal : next.journal = state.journal.rollBack popped.height) :
    attempt.Shelters pusher closing next ∨
      next.saves = pusher.saves ∧ attempt.Leaves pusher closing next.journal := by
  obtain ⟨above, shape, sheltered⟩ := shelters
  rw [Shelters, journal, saves]
  cases above with
  | nil =>
      rw [shape, List.nil_append, List.cons.injEq] at points
      obtain ⟨rfl, same⟩ := points
      exact .inr ⟨SaveStack.eq_of_points same.symm, leaves_rolled inside⟩
  | cons newest left =>
      rw [shape, List.cons_append, List.cons.injEq] at points
      obtain ⟨rfl, same⟩ := points
      refine .inl ⟨left, same.symm, sheltered.rollBack fun other ⟨member, revoked⟩ lower => ?_⟩
      have split := (List.nil_append (newest :: left)).symm
      exact ⟨mem_of_height_lt bounds.toContains split shape member lower, revoked⟩

variable [CharacterData]

/-- A turn leaves the save point on the stack, or it takes the save point away. Then the
commits within are over, and what is left lasts. -/
theorem turn (shelters : attempt.Shelters pusher closing state)
    (inside : attempt.Inside pusher closing state) (step : attempt.Next state next)
    (valid : attempt.program.Valid) (nested : attempt.program.Nested)
    (bounds : attempt.Bounds state) (fits : state.Fits attempt.program)
    (encloses : attempt.program.Encloses pusher.address closing label keep) :
    attempt.Shelters pusher closing next ∨
      next.saves = pusher.saves ∧ attempt.Leaves pusher closing next.journal := by
  obtain ⟨instruction, found, -, proceeds | back⟩ := step.cases valid bounds.sized bounds.address
  · have whole := shelters
    obtain ⟨above, shape, sheltered⟩ := shelters
    have allowed {register : Register} (writes : instruction.Writes register) :=
      Shelters.allowed shape inside nested bounds fits encloses found writes
    have older (newest other : SavePoint) :
        other ∈ above ∧ other.Revoked attempt.program →
          other ∈ newest :: above ∧ other.Revoked attempt.program :=
      And.imp_left (List.mem_cons_of_mem newest)
    have pushed (newest : SavePoint) : newest :: state.saves.points =
        (newest :: above) ++ pusher.mark (closing + 2) :: pusher.saves.points :=
      congrArg (newest :: ·) shape
    cases proceeds with
    | branch => exact .inl ⟨_, pushed _, sheltered.mono (older _)⟩
    | save => exact .inl ⟨_, pushed _, sheltered.mono (older _)⟩
    | more =>
        exact .inl ⟨_, pushed _, (sheltered.write (allowed (.origin _ _ _ _ _)) _).mono (older _)⟩
    | less =>
        exact .inl ⟨_, pushed _, (sheltered.write (allowed (.origin _ _ _ _ _)) _).mono (older _)⟩
    | start counter =>
        have origin := allowed (.startOrigin counter)
        refine .inl ⟨above, shape, (sheltered.write (allowed (.startCount counter)) _).write
          (origin.imp_right ?_) _⟩
        exact fun ⟨save, shelter, lower⟩ => ⟨save, shelter, Nat.le_succ_of_le lower⟩
    | demand => exact .inl ⟨above, shape, sheltered.write (allowed (.origin _ _ _ _ _)) _⟩
    | again => exact .inl ⟨above, shape, sheltered.write (allowed (.count _ _)) _⟩
    | setStart group => exact .inl ⟨above, shape, sheltered.write (allowed (.groupStart group)) _⟩
    | setEnd group => exact .inl ⟨above, shape, sheltered.write (allowed (.groupEnd group)) _⟩
    | clear => exact (nested _ _ found).elim
    | commit bound committed keeps =>
        exact whole.commit inside nested bounds fits found bound committed rfl rfl
    | _ => exact .inl ⟨above, shape, sheltered⟩
  · obtain ⟨popped, rest, points, rfl⟩ := State.backtrack?_eq_some back
    exact shelters.backtrack inside bounds points rfl rfl

end Shelters

variable [CharacterData]

theorem Returned.journal_eq (returned : attempt.Returned pusher closing keep state)
    (leaves : attempt.program.Leaves closing last)
    (here : state.address = closing + 1 ∨ state.address = closing + 2)
    (elsewhere : state.address ≠ last)
    (stays : attempt.StaysAbove pusher.saves state next) : next.journal = state.journal := by
  cases leaves with
  | resume refuses =>
      rcases here with here | here
      · rw [← here] at refuses
        exact (returned.not_fail stays refuses).elim
      · exact absurd here elsewhere
  | across jumps bound refuses =>
      rcases here with here | here
      · rw [← here] at jumps
        obtain ⟨-, resolved⟩ := stays.1.resolve_eq jumps
        rw [Instruction.step, State.goTo, bound] at resolved
        cases resolved
        rfl
      · rw [← here] at refuses
        exact (returned.not_fail stays refuses).elim

/-- Whatever happens in between, the machine leaves with changes of such registers added to
the journal as are written lastingly. -/
theorem leaves_of_comesTo (valid : attempt.program.Valid) (nested : attempt.program.Nested)
    (bounds : attempt.Bounds pusher) (fits : pusher.Fits attempt.program)
    (encloses : attempt.program.Encloses pusher.address closing label keep)
    (leaves : attempt.program.Leaves closing last)
    (comes : attempt.ComesTo last pusher arrival) :
    attempt.Leaves pusher closing arrival.journal := by
  -- With the save point gone the stack is shorter than with the save point on it.
  have apart {state : State} (bears : state.saves.Bears pusher.saves (pusher.mark (closing + 2)))
      (same : state.saves = pusher.saves) : False := by
    obtain ⟨above, shape⟩ := bears
    have lengths := congrArg List.length shape
    rw [same, List.length_append, List.length_cons] at lengths
    omega
  refine (handed_on_of_comesTo (attempt.Shelters pusher closing)
    (fun state => attempt.Leaves pusher closing state.journal) valid nested bounds fits encloses
    leaves comes (fun first step => ?_) (fun state next path inside shelters step => ?_)
    fun state next returned left here elsewhere stays => ?_).2
  · obtain ⟨-, resolved⟩ := step.resolve_eq encloses.opens
    rw [Instruction.step, encloses.bound] at resolved
    cases resolved
    exact ⟨[], rfl, .top _ _ _⟩
  · have fits := fits_reaches valid nested bounds fits path
    have turned :=
      shelters.turn inside step valid nested (bounds.reaches valid path) fits encloses
    constructor
    · exact fun inner => turned.resolve_right fun gone => apart inner.bears gone.1
    · intro returned
      rcases turned with ⟨above, shape, -⟩ | gone
      · exact (apart ⟨above, shape⟩ returned.saves).elim
      · exact gone.2
  · rw [returned.journal_eq leaves here elsewhere stays]
    exact left

end Attempt

end RegexMachine
