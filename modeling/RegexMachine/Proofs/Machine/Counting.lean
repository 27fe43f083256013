import RegexMachine.Proofs.Machine.Loops
import RegexMachine.Proofs.Machine.Standing
import RegexMachine.Proofs.Program.Loops

/-! # What the counters hold

A counter holds what the turns that stand have made of it: zero since the start of its
loop, and one more for each end of the body. Before all of them it is not set, and reading
it is no fault. If the loops of the program are nested, then no turn reads a counter that
is not set, and none makes it greater than the most iterations of its loop. -/

namespace RegexMachine

namespace Instruction

/-- What the instruction makes of the content of a counter. -/
def recount (counter : Nat) (content : Option Nat) : Instruction → Option Nat
  | .repeatStart own => if own.toNat = counter then some 0 else content
  | .repeatEnd own _ => if own.toNat = counter then some (nextCount content) else content
  | _ => content

variable {program : Program} {subject : Subject} {state next moment : State}
  {instruction : Instruction} {resume counter : Nat} {marker : Bool} {content : Option Nat}

theorem recount_of_flat (flat : instruction.turnsLoop = false) :
    instruction.recount counter content = content := by
  cases instruction with
  | repeatStart => cases flat
  | repeatEnd => cases flat
  | _ => rfl

theorem recount_eq_none_iff :
    instruction.recount counter content = none ↔
      ¬instruction.Writes (.count counter) ∧ content = none := by
  by_cases writes : instruction.Writes (.count counter)
  · have set : instruction.recount counter content ≠ none := by
      cases writes <;> simp [recount]
    exact ⟨fun unset => absurd unset set, fun ⟨silent, _⟩ => absurd writes silent⟩
  · have silent : instruction.recount counter content = content := by
      cases instruction with
      | repeatStart own =>
          refine if_neg fun same => writes ?_
          subst same
          exact .startCount own
      | repeatEnd own head =>
          refine if_neg fun same => writes ?_
          subst same
          exact .count own head
      | _ => rfl
    rw [silent]
    exact ⟨fun unset => ⟨writes, unset⟩, And.right⟩

theorem recount_lt {bound count : Nat} (below : ∀ known, content = some known → known < bound)
    (counted : instruction.recount counter content = some count) : count < bound + 1 := by
  have stays (same : content = some count) : count < bound + 1 := Nat.lt_succ_of_lt (below _ same)
  cases instruction with
  | repeatStart own =>
      rw [recount] at counted
      split at counted
      · cases counted
        exact Nat.succ_pos _
      · exact stays counted
  | repeatEnd own head =>
      rw [recount] at counted
      split at counted
      · cases content with
        | none =>
            cases counted
            exact Nat.succ_pos _
        | some known =>
            cases counted
            exact Nat.succ_lt_succ (below _ rfl)
      · exact stays counted
  | _ => exact stays counted

variable [CharacterData]

theorem Proceeds.count_eq (proceeds : instruction.Proceeds program subject state next)
    (resolves : instruction.Resolves program)
    (sized : state.journal.Sized program.captureCount program.counterCount)
    (keeps : ∀ label, instruction ≠ .clearThrough label false) (counter : Nat) :
    next.journal.count counter =
      instruction.recount counter (state.journal.count counter) := by
  have other {written : Register} (fits : written.Fits state.journal.groups)
      (content : Option Nat) (apart : written ≠ .count counter) :
      (state.journal.write written content).count counter = state.journal.count counter :=
    Registers.read_write_other fits (Register.fits_count _ _) apart content
  have count {own : UInt16} (inside : own.toNat < program.counterCount)
      (content : Option Nat) :
      (state.journal.setCount own.toNat content).count counter =
        if own.toNat = counter then content else state.journal.count counter := by
    split
    · next same =>
        subst same
        exact Journal.count_setCount sized inside content
    · next apart => exact other (Register.fits_count _ _) _ (by simpa using apart)
  cases proceeds with
  | start own =>
      exact (Journal.count_setOrigin _ _ _ counter).trans (count resolves _)
  | again =>
      refine (count resolves.1 _).trans ?_
      rw [recount]
      split
      · next same => rw [same]
      · rfl
  | demand | more | less => exact Journal.count_setOrigin _ _ _ counter
  | setStart _ inside => exact other (Register.fits_groupStart inside) _ (by simp)
  | setEnd _ inside => exact other (Register.fits_groupEnd inside) _ (by simp)
  | commit bound committed keep =>
      cases keep with
      | true => rfl
      | false => exact absurd rfl (keeps _)
  | consume consumes => cases consumes <;> rfl
  | _ => rfl

omit [CharacterData] in
theorem Pushes.count_eq (pushes : instruction.Pushes program state moment resume marker)
    (counter : Nat) : moment.journal.count counter = state.journal.count counter := by
  cases pushes with
  | less => exact Journal.count_setOrigin _ _ _ counter
  | _ => rfl

omit [CharacterData] in
theorem Pushes.flat (pushes : instruction.Pushes program state moment resume marker) :
    instruction.turnsLoop = false := by
  cases pushes <;> rfl

end Instruction

/-- What the turns, the newest first, leave in a counter that is not set before them. -/
def Program.countAfter (program : Program) (counter : Nat) : List State → Option Nat
  | [] => none
  | turn :: turns =>
      match program.instructions[turn.address]? with
      | some instruction => instruction.recount counter (program.countAfter counter turns)
      | none => program.countAfter counter turns

namespace Program

variable {program : Program} {counter : Nat} {turn : State} {turns : List State}
  {instruction : Instruction}

theorem countAfter_cons (found : program.instructions[turn.address]? = some instruction) :
    program.countAfter counter (turn :: turns) =
      instruction.recount counter (program.countAfter counter turns) := by
  rw [countAfter, found]

theorem countAfter_eq_none_iff :
    program.countAfter counter turns = none ↔ ∀ turn ∈ turns, ∀ instruction,
      program.instructions[turn.address]? = some instruction →
        ¬instruction.Writes (.count counter) := by
  induction turns with
  | nil => exact ⟨fun _ => nofun, fun _ => rfl⟩
  | cons turn turns induction =>
      rw [List.forall_mem_cons, ← induction]
      cases found : program.instructions[turn.address]? with
      | none =>
          rw [countAfter, found]
          exact ⟨fun unset => ⟨nofun, unset⟩, And.right⟩
      | some instruction =>
          rw [countAfter_cons found, Instruction.recount_eq_none_iff]
          simp only [Option.some.injEq, forall_eq']

theorem countAfter_lt {count : Nat} (counted : program.countAfter counter turns = some count) :
    count < turns.length := by
  induction turns generalizing count with
  | nil => cases counted
  | cons turn turns induction =>
      cases found : program.instructions[turn.address]? with
      | none =>
          rw [countAfter, found] at counted
          exact Nat.lt_succ_of_lt (induction counted)
      | some instruction =>
          rw [countAfter_cons found] at counted
          exact Instruction.recount_lt (fun _ => induction) counted

end Program

namespace Attempt

variable {attempt : Attempt} {origin state next pusher moment : State} {save : SavePoint}
  {turns : List State} {counter : Nat}

variable [CharacterData]

theorem Next.count_eq {instruction : Instruction} (step : attempt.Next state next)
    (valid : attempt.program.Valid)
    (bounds : attempt.Bounds state) (keeps : ∀ save, ¬attempt.TakesBack state next save)
    (found : attempt.program.instructions[state.address]? = some instruction)
    (proceeds : instruction.Proceeds attempt.program attempt.subject state.counted next)
    (counter : Nat) :
    next.journal.count counter =
      instruction.recount counter (state.journal.count counter) := by
  have sized : state.counted.journal.Sized attempt.program.captureCount
      attempt.program.counterCount := bounds.sized
  refine proceeds.count_eq (valid.resolves _ _ found) sized (fun label revokes => ?_) counter
  subst revokes
  cases proceeds with
  | commit bound committed => exact keeps _ (.revoke step found bound committed)
  | consume consumes => cases consumes

/-- A counter holds what the turns that stand have left in it. -/
theorem Standing.count_eq (standing : attempt.Standing origin state turns)
    (valid : attempt.program.Valid) (bounds : attempt.Bounds origin)
    (unset : origin.journal.count counter = none) :
    state.journal.count counter = attempt.program.countAfter counter turns := by
  induction standing with
  | start => exact unset
  | onward standing step keeps induction =>
      have within := bounds.reaches valid standing.reaches
      obtain ⟨instruction, found, -, proceeds⟩ := step.proceeds valid within keeps
      rw [Program.countAfter_cons found, ← induction]
      exact step.count_eq valid within keeps found proceeds counter
  | back standing pushed returns below induction =>
      obtain ⟨instruction, found, pushes⟩ := pushed.instruction
      rw [Program.countAfter_cons found, Instruction.recount_of_flat pushes.flat, ← induction,
        pushed.journal_eq returns valid bounds]
      exact pushes.count_eq counter

theorem Standing.length_le (standing : attempt.Standing origin state turns)
    (valid : attempt.program.Valid) (bounds : attempt.Bounds origin) :
    turns.length ≤ state.steps := by
  induction standing with
  | start => exact Nat.zero_le _
  | onward standing step keeps induction =>
      have counted := step.steps valid (bounds.reaches valid standing.reaches)
      rw [List.length_cons]
      omega
  | back standing pushed returns below induction =>
      have sooner := pushed.steps_lt valid bounds
      have counted := returns.step.steps valid (bounds.reaches valid pushed.reaches)
      rw [List.length_cons]
      omega

end Attempt

/-! ## Counting up to the maximum -/

theorem countReaches_eq_false {count : Nat} {bound : UInt32} :
    countReaches (some count) bound = false ↔ count < bound.toNat := by
  rw [← Bool.not_eq_true, countReaches_some, Nat.not_le]

def Program.Tallies (program : Program) (journal : Journal) (spare opening : Nat) : Prop :=
  ∃ counter max count, program.Repeats opening counter max ∧
    journal.count counter.toNat = some count ∧ count + spare ≤ max.toNat

/-- The loops that are open at the address of the state are being counted. Only at its head
a loop may have come to its last iteration. -/
def State.Tallies (state : State) (program : Program) : Prop :=
  ∀ opening ∈ program.openLoops state.address,
    program.Tallies state.journal (if state.address = opening + 1 then 0 else 1) opening

namespace Program.Tallies

variable {program : Program} {journal other : Journal} {spare less opening : Nat}

theorem mono (tallies : program.Tallies journal spare opening) (fewer : less ≤ spare) :
    program.Tallies journal less opening := by
  obtain ⟨counter, max, count, repeats, counted, within⟩ := tallies
  exact ⟨counter, max, count, repeats, counted, by omega⟩

theorem congr (tallies : program.Tallies journal spare opening)
    (same : ∀ counter max, program.Repeats opening counter max →
      other.count counter.toNat = journal.count counter.toNat) :
    program.Tallies other spare opening := by
  obtain ⟨counter, max, count, repeats, counted, within⟩ := tallies
  exact ⟨counter, max, count, repeats, (same counter max repeats).trans counted, within⟩

theorem count {counter : UInt16} {max : UInt32}
    (tallies : program.Tallies journal spare opening)
    (repeats : program.Repeats opening counter max) :
    ∃ count, journal.count counter.toNat = some count ∧ count + spare ≤ max.toNat := by
  obtain ⟨own, most, count, again, counted, within⟩ := tallies
  obtain ⟨rfl, rfl⟩ := repeats.unique again
  exact ⟨count, counted, within⟩

end Program.Tallies

namespace State.Tallies

variable {program : Program} {subject : Subject} {state next : State}
  {instruction : Instruction} {opening : Nat}

theorem of_spare (spare : ∀ opening ∈ program.openLoops state.address,
    program.Tallies state.journal 1 opening) : state.Tallies program := by
  intro opening member
  refine (spare opening member).mono ?_
  split <;> omega

theorem spare (tallies : state.Tallies program)
    (found : program.instructions[state.address]? = some instruction)
    (body : ∀ greed min max counter exit, instruction ≠ .quantify greed min max counter exit)
    (member : opening ∈ program.openLoops state.address) :
    program.Tallies state.journal 1 opening := by
  have tallied := tallies opening member
  split at tallied
  · next head =>
      obtain ⟨counter, max, count, repeats, -⟩ := tallied
      obtain ⟨greed, min, exit, decides⟩ := repeats.decides
      rw [head, decides] at found
      cases found
      exact absurd rfl (body _ _ _ _ _)
  · exact tallied

theorem outer (tallies : state.Tallies program) (head : state.address = opening + 1)
    (opens : program.openLoops state.address = opening :: program.openLoops opening)
    {around : Nat} (member : around ∈ program.openLoops opening) :
    program.Tallies state.journal 1 around := by
  have before := Program.lt_of_mem_openLoops member
  have tallied := tallies around (by rw [opens]; exact List.mem_cons_of_mem _ member)
  rwa [if_neg (by omega)] at tallied

/-- If the head lets the body be entered then there is an iteration to spare. -/
theorem spare_of_below {greed : Greed} {min most bound : UInt32} {counter : UInt16}
    {exit : Label} (tallies : state.Tallies program) (nested : program.LoopsNested)
    (found : program.instructions[state.address]? =
      some (.quantify greed min most counter exit))
    (below : countReaches (state.journal.count counter.toNat) bound = false)
    (bounded : bound ≤ most) (member : opening ∈ program.openLoops state.address) :
    program.Tallies state.journal 1 opening := by
  obtain ⟨start, head, repeats, -⟩ := nested _ _ found
  have opens := repeats.openLoops_head
  rw [← head] at opens
  rw [opens] at member
  rcases List.mem_cons.mp member with rfl | around
  · have tallied := tallies opening (by rw [opens]; exact List.mem_cons_self)
    obtain ⟨count, counted, -⟩ := tallied.count repeats
    rw [counted, countReaches_eq_false] at below
    have bounded : bound.toNat ≤ most.toNat := bounded
    exact ⟨counter, most, count, repeats, counted, by omega⟩
  · exact tallies.outer head opens around

/-- Where a loop comes to its head, and no counter but its own is another one than before,
the loops around it have as much to spare as before. -/
theorem of_head {counter : UInt16} {max : UInt32} {count : Nat}
    (repeats : program.Repeats opening counter max) (nested : program.LoopsNested)
    (head : next.address = opening + 1)
    (counted : next.journal.count counter.toNat = some count) (within : count ≤ max.toNat)
    (spare : ∀ around ∈ program.openLoops opening, program.Tallies state.journal 1 around)
    (others : ∀ other, counter.toNat ≠ other →
      next.journal.count other = state.journal.count other) : next.Tallies program := by
  intro around member
  rw [head, repeats.openLoops_head] at member
  rcases List.mem_cons.mp member with rfl | outside
  · rw [if_pos head]
    exact ⟨counter, max, count, repeats, counted, within⟩
  · have before := Program.lt_of_mem_openLoops outside
    rw [if_neg (by omega)]
    refine (spare around outside).congr fun other most outer => others _ fun same => ?_
    exact repeats.apart nested outside outer (UInt16.toNat.inj same.symm)

variable [CharacterData]

theorem proceed (tallies : state.Tallies program) (nested : program.LoopsNested)
    (found : program.instructions[state.address]? = some instruction)
    (resolves : instruction.Resolves program)
    (proceeds : instruction.Proceeds program subject state.counted next)
    (counts : ∀ counter, next.journal.count counter =
      instruction.recount counter (state.journal.count counter)) : next.Tallies program := by
  have keeps := nested _ _ found
  -- Where no loop starts or ends, the counters are as they were.
  have flat (plain : instruction.turnsLoop = false) {opening : Nat}
      (tallied : program.Tallies state.journal 1 opening) :
      program.Tallies next.journal 1 opening :=
    tallied.congr fun counter _ _ => by rw [counts, Instruction.recount_of_flat plain]
  have stay (plain : instruction.turnsLoop = false)
      (body : ∀ greed min max counter exit, instruction ≠ .quantify greed min max counter exit)
      (level : program.openLoops next.address = program.openLoops state.address) :
      next.Tallies program := by
    refine of_spare fun opening member => flat plain (tallies.spare found body ?_)
    rwa [level] at member
  have follow (plain : instruction.turnsLoop = false)
      (spare : ∀ opening ∈ program.openLoops state.address,
        program.Tallies state.journal 1 opening)
      (behind : next.address = state.address + 1) : next.Tallies program := by
    refine of_spare fun opening member => flat plain (spare opening ?_)
    rwa [behind, Program.openLoops_flat found plain] at member
  cases proceeds with
  | consume consumes =>
      have plain : instruction.turnsLoop = false := by cases consumes <;> rfl
      have body (greed min max counter exit) :
          instruction ≠ .quantify greed min max counter exit := by cases consumes <;> nofun
      exact stay plain body (Program.openLoops_flat found plain)
  | jump bound => exact stay rfl nofun (keeps _ bound)
  | branch bound => exact stay rfl nofun (keeps _ bound)
  | start counter =>
      obtain ⟨⟨max, repeats⟩, -⟩ := keeps
      refine of_head repeats nested rfl ((counts _).trans (if_pos rfl)) (Nat.zero_le _)
        (fun around outside => tallies.spare found nofun outside) fun other apart => ?_
      exact (counts other).trans (if_neg apart)
  | demand below =>
      exact follow rfl (fun _ => tallies.spare_of_below nested found below resolves.2.2) rfl
  | more _ _ below =>
      exact follow rfl (fun _ => tallies.spare_of_below nested found below (UInt32.le_refl _)) rfl
  | full bound | less bound =>
      obtain ⟨start, head, repeats, leads⟩ := keeps
      have opens := repeats.openLoops_head
      rw [← head] at opens
      refine of_spare fun opening member => flat rfl (tallies.outer head opens ?_)
      rwa [show program.openLoops _ = _ from leads _ bound] at member
  | again _ bound =>
      obtain ⟨start, max, opens, repeats, leads⟩ := keeps
      rw [bound] at leads
      cases leads
      have spare {opening} (member : opening ∈ start :: program.openLoops start) :
          program.Tallies state.journal 1 opening := tallies.spare found nofun (opens ▸ member)
      obtain ⟨count, counted, within⟩ := (spare List.mem_cons_self).count repeats
      refine of_head repeats nested rfl ?_ within
        (fun around outside => spare (List.mem_cons_of_mem _ outside)) fun other apart => ?_
      · rw [counts, counted]
        exact if_pos rfl
      · exact (counts other).trans (if_neg apart)
  | _ => exact stay rfl nofun (Program.openLoops_flat found rfl)

end State.Tallies

/-- If a counter is read in the state then it is set. At the head of a loop it is not above
the most iterations, and at the end of the body it is below them, so that it may be counted
up. -/
structure State.ReadsWithin (state : State) (program : Program) : Prop where
  head : ∀ greed min max counter exit,
    program.instructions[state.address]? = some (.quantify greed min max counter exit) →
      ∃ count, state.journal.count counter.toNat = some count ∧ count ≤ max.toNat
  body : ∀ counter head,
    program.instructions[state.address]? = some (.repeatEnd counter head) →
      ∃ goal greed min max exit count, program.target? head = some goal ∧
        program.instructions[goal]? = some (.quantify greed min max counter exit) ∧
          state.journal.count counter.toNat = some count ∧ count < max.toNat

theorem State.Tallies.readsWithin {state : State} {program : Program}
    (tallies : state.Tallies program) (nested : program.LoopsNested) :
    state.ReadsWithin program where
  head greed min max counter exit found := by
    obtain ⟨opening, head, repeats, -⟩ := nested _ _ found
    have opens := repeats.openLoops_head
    rw [← head] at opens
    have tallied := tallies opening (by rw [opens]; exact List.mem_cons_self)
    obtain ⟨count, counted, within⟩ := tallied.count repeats
    exact ⟨count, counted, by omega⟩
  body counter head found := by
    obtain ⟨opening, max, opens, repeats, leads⟩ := nested _ _ found
    have tallied := tallies.spare found nofun (by rw [opens]; exact List.mem_cons_self)
    obtain ⟨count, counted, within⟩ := tallied.count repeats
    obtain ⟨greed, min, exit, decides⟩ := repeats.decides
    exact ⟨_, greed, min, max, exit, count, leads, decides, counted, within⟩

/-- Where the save point resumes only loops are open that are open where it is pushed. -/
theorem Instruction.Pushes.openLoops_subset {program : Program} {state moment : State}
    {instruction : Instruction} {resume : Nat} {marker : Bool}
    (pushes : instruction.Pushes program state.counted moment resume marker)
    (nested : program.LoopsNested)
    (found : program.instructions[state.address]? = some instruction) :
    program.openLoops resume ⊆ program.openLoops state.address := by
  have behind := Program.openLoops_flat found pushes.flat
  have keeps := nested _ _ found
  cases pushes with
  | branch => exact fun opening member => behind ▸ member
  | less => exact fun opening member => behind ▸ member
  | save bound => exact fun opening member => keeps _ bound ▸ member
  | more bound =>
      obtain ⟨opening, head, repeats, leads⟩ := keeps
      rw [leads _ bound, head, repeats.openLoops_head]
      exact List.subset_cons_self _ _

namespace Attempt

variable {attempt : Attempt} {origin state next pusher moment : State} {save : SavePoint}
  {turns : List State}

namespace Pushed

variable [CharacterData]

theorem below (pushed : attempt.Pushed origin pusher moment save state)
    (valid : attempt.program.Valid) (bounds : attempt.Bounds origin) {greed : Greed}
    {min max : UInt32} {counter : UInt16} {exit : Label}
    (found : attempt.program.instructions[pusher.address]? =
      some (.quantify greed min max counter exit)) :
    countReaches (pusher.journal.count counter.toNat) max = false := by
  have pushing := bounds.reaches valid pushed.reached
  obtain ⟨first, step, saves, -⟩ := pushed.stays
  obtain ⟨instruction, -, pushes⟩ := pushed.instruction
  have grown : first.saves.points.length = pusher.saves.points.length + 1 := by
    rw [saves, pushes.saves_eq]
    rfl
  obtain ⟨other, again, -, proceeds | back⟩ := step.cases valid pushing.sized pushing.address
  · rw [found] at again
    cases again
    cases proceeds with
    | more _ _ below => exact below
    | less _ _ below => exact below
    | demand | full => exact absurd grown (Nat.ne_of_lt (Nat.lt_succ_self _))
    | consume consumes => cases consumes
  · obtain ⟨_, rest, shape, rfl⟩ := State.backtrack?_eq_some back
    have lengths : pusher.saves.points.length = rest.points.length + 1 :=
      congrArg List.length shape
    have grown : rest.points.length = pusher.saves.points.length + 1 := grown
    omega

theorem spare (pushed : attempt.Pushed origin pusher moment save state)
    (valid : attempt.program.Valid) (nested : attempt.program.LoopsNested)
    (bounds : attempt.Bounds origin) (tallies : pusher.Tallies attempt.program)
    {opening : Nat} (member : opening ∈ attempt.program.openLoops pusher.address) :
    attempt.program.Tallies pusher.journal 1 opening := by
  obtain ⟨instruction, found, pushes⟩ := pushed.instruction
  cases instruction with
  | quantify =>
      exact tallies.spare_of_below nested found (pushed.below valid bounds found)
        (UInt32.le_refl _) member
  | branch => exact tallies.spare found nofun member
  | save => exact tallies.spare found nofun member
  | _ => cases pushes

theorem openLoops_subset (pushed : attempt.Pushed origin pusher moment save state)
    (returns : attempt.TakesBack state next save) (valid : attempt.program.Valid)
    (nested : attempt.program.LoopsNested) (bounds : attempt.Bounds state) :
    attempt.program.openLoops next.address ⊆ attempt.program.openLoops pusher.address := by
  obtain ⟨instruction, pushing, pushes⟩ := pushed.instruction
  have resumed := pushes.openLoops_subset nested pushing
  cases returns with
  | backtrack backtracks newest =>
      obtain ⟨popped, rest, shape, rfl⟩ :=
        State.backtrack?_eq_some (backtracks.backtrack?_eq valid bounds)
      have shape : state.saves.points = popped :: rest.points := shape
      rw [newest] at shape
      cases shape
      exact resumed
  | revoke step found bound committed =>
      obtain ⟨-, -, -, rfl⟩ := SaveStack.points_of_commitTo? committed
      rw [step.revoked found bound committed]
      have behind := Program.openLoops_flat found rfl
      exact fun opening member => resumed ((nested _ _ found _ bound).symm ▸ behind ▸ member)

end Pushed

variable [CharacterData]

/-- Where the turns that stand have led, every open loop is being counted. -/
theorem Standing.tallies (standing : attempt.Standing origin state turns)
    (valid : attempt.program.Valid) (nested : attempt.program.LoopsNested)
    (bounds : attempt.Bounds origin) (begins : origin.Tallies attempt.program) :
    state.Tallies attempt.program := by
  induction standing with
  | start => exact begins
  | onward standing step keeps induction =>
      have within := bounds.reaches valid standing.reaches
      obtain ⟨instruction, found, resolves, proceeds⟩ := step.proceeds valid within keeps
      exact induction.proceed nested found resolves proceeds
        (step.count_eq valid within keeps found proceeds)
  | back standing pushed returns below induction =>
      have within := bounds.reaches valid pushed.reaches
      obtain ⟨instruction, found, pushes⟩ := pushed.instruction
      refine .of_spare fun opening member => ?_
      have open_ := pushed.openLoops_subset returns valid nested within member
      refine (pushed.spare valid nested bounds induction open_).congr fun counter _ _ => ?_
      rw [pushed.journal_eq returns valid bounds]
      exact pushes.count_eq counter.toNat

end Attempt

end RegexMachine
