import RegexMachine.Proofs.Machine.Bounds
import RegexMachine.Proofs.Program.Depths
import RegexMachine.Rune.Repertoire

/-! # The stack of a validated program

The settled depths are never greater than the number of save points on the
stack, on whatever path the machine has come and to whichever save point it
returns. A single discard therefore always finds a save point. A commit finds
save points too, but not always the marked one that it looks for, since the
depths do not tell save points apart. -/

namespace RegexMachine

namespace SaveStack

theorem commitTo?_eq_none_iff {stack : SaveStack} {goal : Nat} :
    stack.commitTo? goal = none ↔
      ∀ save ∈ stack.points, save.marker = true → save.resume ≠ goal := by
  rcases stack with ⟨points, size, size_eq⟩
  simp only [commitTo?]
  induction points generalizing size with
  | nil => simp [commitAmong?]
  | cons save rest induction =>
      rw [commitAmong?, List.forall_mem_cons]
      split
      · next wanted => simp_all
      · next unwanted =>
          rw [induction (size - 1) (by simp [size_eq])]
          simp only [Bool.and_eq_true, beq_iff_eq, not_and] at unwanted
          exact ⟨fun below => ⟨unwanted, below⟩, fun all => all.2⟩

end SaveStack

namespace SaveDepths

/-- Wherever a save point resumes, the depths admit what lies below it. -/
def Supports (depths : SaveDepths) : List SavePoint → Prop
  | [] => True
  | save :: rest =>
      Admits depths.depth save.resume rest.length ∧
        (save.marker = true → Admits depths.marker save.resume rest.length) ∧
          depths.Supports rest

theorem Supports.drop {depths : SaveDepths} {above rest : List SavePoint}
    (supports : depths.Supports (above ++ rest)) : depths.Supports rest := by
  induction above with
  | nil => exact supports
  | cons save above induction => exact induction supports.2.2

section Fixed

variable {depths : SaveDepths} {first second low high : Nat}

theorem size_reach (depths : SaveDepths) (address bound : Nat) :
    (depths.reach address bound).depth.size = depths.depth.size :=
  Array.size_modify

theorem admits_of_reach (fixed : depths.reach first low = depths)
    (inside : first < depths.depth.size) : Admits depths.depth first low := by
  have admits := admits_lowerEntry inside low
  rw [← fixed]
  exact admits

theorem admits_of_reach_reach (fixed : (depths.reach first low).reach second high = depths)
    (firstInside : first < depths.depth.size) (secondInside : second < depths.depth.size) :
    Admits depths.depth first low ∧ Admits depths.depth second high := by
  have earlier : Admits (depths.reach first low).depth first low :=
    admits_lowerEntry firstInside low
  have later : Admits ((depths.reach first low).reach second high).depth second high :=
    admits_lowerEntry (by rw [size_reach]; exact secondInside) high
  have kept := (Below.reach (depths.reach first low) second high).admits earlier
  rw [fixed] at kept later
  exact ⟨kept, later⟩

theorem admits_of_mark (fixed : ((depths.reach first low).reach second high).mark second
      high = depths)
    (firstInside : first < depths.depth.size) (secondInside : second < depths.depth.size)
    (markerInside : second < depths.marker.size) :
    Admits depths.depth first low ∧ Admits depths.depth second high ∧
      Admits depths.marker second high := by
  have marked : Admits (((depths.reach first low).reach second high).mark second
      high).marker second high :=
    admits_lowerEntry markerInside high
  have reached : (depths.reach first low).reach second high = depths := by
    apply Below.antisymm ((Below.reach _ second high).trans (.reach depths first low))
    conv => lhs; rw [← fixed]
    exact .mark _ second high
  rcases admits_of_reach_reach reached firstInside secondInside with ⟨there, next⟩
  rw [fixed] at marked
  exact ⟨there, next, marked⟩

end Fixed

end SaveDepths

open SaveDepths

namespace Program

variable {program : Program} {depths : SaveDepths}

theorem Settled.transfer (settled : program.Settled depths) {address least : Nat}
    {instruction : Instruction}
    (found : program.instructions[address]? = some instruction)
    (known : depths.depth[address]?.join = some least) :
    program.transfer program.resumePoints address least instruction depths =
      .ok depths := by
  rcases Array.getElem?_eq_some_iff.mp found with ⟨inside, -⟩
  have visited := settled.visits address inside
  simpa only [visit, found, depth?, known] using visited

theorem Settled.admits_quantify (settled : program.Settled depths) (valid : program.Valid)
    {address least goal : Nat} {greed : Greed} {min max : UInt32}
    {counter : UInt16} {exit : Label}
    (found : program.instructions[address]? = some (.quantify greed min max counter exit))
    (known : depths.depth[address]?.join = some least)
    (target : program.target? exit = some goal) :
    Admits depths.depth (address + 1) least ∧ Admits depths.depth goal least := by
  have passes := settled.transfer found known
  simp only [Program.transfer, target, Except.ok.injEq] at passes
  have resolves := valid.resolves _ _ found
  apply admits_of_reach_reach passes
  · rw [settled.depthSize]
    exact valid.next_lt found rfl
  · rw [settled.depthSize]
    exact resolves.2.1.lt target

end Program

namespace State

/-- The depths admit the stack, both where the state is and wherever it may
return to. -/
structure Within (state : State) (depths : SaveDepths) : Prop where
  here : Admits depths.depth state.address state.saves.points.length
  supports : depths.Supports state.saves.points

end State

/-! ## One turn -/

namespace State.Within

variable {program : Program} {depths : SaveDepths} {subject : Subject}
  {state next : State} {instruction : Instruction}

variable [CharacterData]

theorem proceed (valid : program.Valid) (settled : program.Settled depths)
    (found : program.instructions[state.address]? = some instruction)
    (within : state.Within depths)
    (proceeds : instruction.Proceeds program subject state.counted next) :
    next.Within depths := by
  rcases within with ⟨⟨least, known, ordered⟩, supports⟩
  have passes := settled.transfer found known
  have resolves := valid.resolves _ _ found
  have following (opens : instruction.closesProgram = false) :
      state.address + 1 < depths.depth.size := by
    rw [settled.depthSize]
    exact valid.next_lt found opens
  have depthInside {address} (inside : address < program.instructions.size) :
      address < depths.depth.size := by
    rw [settled.depthSize]
    exact inside
  have markerInside {address} (inside : address < program.instructions.size) :
      address < depths.marker.size := by
    rw [settled.markerSize]
    exact inside
  -- Most instructions leave the stack alone and go on with the next one.
  have pass (opens : instruction.closesProgram = false)
      (passes : Except.ok (depths.reach (state.address + 1) least) =
        (Except.ok depths : Except Rejection SaveDepths)) :
      Admits depths.depth (state.address + 1) state.saves.points.length :=
    (admits_of_reach (Except.ok.inj passes) (following opens)).weaken ordered
  cases proceeds with
  | consume consumes =>
      exact ⟨pass consumes.opens (by cases consumes <;> exact passes), supports⟩
  | unset => exact ⟨pass rfl passes, supports⟩
  | anchor => exact ⟨pass rfl passes, supports⟩
  | start => exact ⟨pass rfl passes, supports⟩
  | setStart => exact ⟨pass rfl passes, supports⟩
  | setEnd => exact ⟨pass rfl passes, supports⟩
  | jump target =>
      simp only [Program.transfer, target, Except.ok.injEq] at passes
      have there := admits_of_reach passes (depthInside (Program.Binds.lt resolves target))
      exact ⟨there.weaken ordered, supports⟩
  | branch target =>
      simp only [Program.transfer, target, Except.ok.injEq] at passes
      rcases admits_of_reach_reach passes
          (depthInside (Program.Binds.lt resolves target)) (following rfl) with
        ⟨there, next⟩
      exact ⟨there.weaken (Nat.succ_le_succ ordered), next.weaken ordered,
        fun plain => (by cases plain), supports⟩
  | save target =>
      simp only [Program.transfer, target, Except.ok.injEq] at passes
      have goal := Program.Binds.lt resolves target
      rcases admits_of_mark passes (following rfl)
          (depthInside goal) (markerInside goal) with
        ⟨next, there, marked⟩
      exact ⟨next.weaken (Nat.succ_le_succ ordered), there.weaken ordered,
        fun _ => marked.weaken ordered, supports⟩
  | clear popped =>
      simp only [Program.transfer] at passes
      split at passes
      · cases passes
      · have shape := SaveStack.points_of_pop? popped
        change state.saves.points = _ at shape
        have next := admits_of_reach (Except.ok.inj passes) (following rfl)
        rw [shape] at supports ordered
        rw [List.length_cons] at ordered
        exact ⟨next.weaken (Nat.sub_le_of_le_add ordered), supports.2.2⟩
  | commit target committed keep =>
      simp only [Program.transfer, target] at passes
      split at passes
      · rcases SaveStack.points_of_commitTo? committed with ⟨above, shape, marked, rfl⟩
        change state.saves.points = _ at shape
        rw [shape] at supports
        rcases supports.drop with ⟨-, admitted, below⟩
        rcases admitted marked with ⟨bound, lowest, smaller⟩
        rw [marker?, lowest] at passes
        have next := admits_of_reach (Except.ok.inj passes) (following rfl)
        exact ⟨next.weaken smaller, below⟩
      · cases passes
  | demand =>
      rcases resolves.2.1 with ⟨goal, target, -⟩
      exact ⟨(settled.admits_quantify valid found known target).1.weaken ordered, supports⟩
  | full target =>
      exact ⟨(settled.admits_quantify valid found known target).2.weaken ordered, supports⟩
  | more target =>
      rcases settled.admits_quantify valid found known target with ⟨next, there⟩
      exact ⟨next.weaken (Nat.le_succ_of_le ordered), there.weaken ordered,
        fun plain => (by cases plain), supports⟩
  | less target =>
      rcases settled.admits_quantify valid found known target with ⟨next, there⟩
      exact ⟨there.weaken (Nat.le_succ_of_le ordered), next.weaken ordered,
        fun plain => (by cases plain), supports⟩
  | again loops target =>
      simp only [Program.transfer, target, Except.ok.injEq] at passes
      rcases resolves with ⟨-, address, _, _, _, _, bound, head⟩
      have there := admits_of_reach passes
        (depthInside ((Program.binds_of_loop bound head).lt target))
      exact ⟨there.weaken ordered, supports⟩

omit [CharacterData] in
theorem backtrack (supports : depths.Supports state.saves.points)
    (back : state.backtrack? = some next) : next.Within depths := by
  obtain ⟨save, rest, shape, rfl⟩ := State.backtrack?_eq_some back
  rw [shape] at supports
  exact ⟨supports.1, supports.2.2⟩

end State.Within

namespace Attempt

variable {attempt : Attempt} {depths : SaveDepths} {state next : State}

/-! ## Whole runs -/

variable [CharacterData]

theorem within_reaches (valid : attempt.program.Valid)
    (settled : attempt.program.Settled depths) (bounds : attempt.Bounds state)
    (within : state.Within depths) (path : attempt.Reaches state next) :
    next.Within depths := by
  induction path with
  | refl => exact within
  | tail path step induction =>
      have bounds := bounds.reaches valid path
      rcases step.cases valid bounds.sized bounds.address with
        ⟨instruction, found, -, proceeds | back⟩
      · exact induction.proceed valid settled found proceeds
      · refine State.Within.backtrack ?_ back
        exact induction.supports

omit [CharacterData] in
theorem within_setOut (settled : attempt.program.Settled depths) (left : State) :
    (attempt.setOut left).Within depths :=
  ⟨settled.start, trivial⟩

/-- The state is about to execute a commit that finds save points, but not the
marked one that it is to commit to. -/
def Strands (attempt : Attempt) (state : State) : Prop :=
  attempt.exhausted state = false ∧ state.saves.points ≠ [] ∧
    ∃ target keep goal,
      attempt.program.instructions[state.address]? = some (.clearThrough target keep) ∧
        attempt.program.target? target = some goal ∧
          ∀ save ∈ state.saves.points, save.marker = true → save.resume ≠ goal

omit [CharacterData] in
theorem nonempty_of_discards (settled : attempt.program.Settled depths)
    (within : state.Within depths) {instruction : Instruction}
    (found : attempt.program.instructions[state.address]? = some instruction)
    (discards : instruction = .clear ∨ ∃ target keep, instruction = .clearThrough target keep) :
    state.saves.points ≠ [] := by
  rcases within.here with ⟨least, known, ordered⟩
  have passes := settled.transfer found known
  intro empty
  rw [empty] at ordered
  obtain rfl : least = 0 := by simpa using ordered
  rcases discards with rfl | ⟨target, keep, rfl⟩
  · simp [Program.transfer] at passes
  · simp only [Program.transfer, ne_eq, not_true_eq_false, and_false, if_false] at passes
    split at passes <;> cases passes

theorem ends_missingSavePoint_iff (valid : attempt.program.Valid)
    (admitted : attempt.Admitted) (left : State) :
    (∃ final, attempt.Ends (attempt.setOut left) (.error .missingSavePoint) final) ↔
      ∃ state, attempt.Reaches (attempt.setOut left) state ∧ attempt.Strands state := by
  constructor
  · intro ends
    rcases ends with ⟨final, last, path, done⟩
    rcases valid.settles with ⟨depths, found⟩
    have settled := Program.settled_of_saveDepths found valid.nonempty
    have bounds := (Bounds.setOut valid admitted left).reaches valid path
    have within := within_reaches valid settled (.setOut valid admitted left)
      (within_setOut settled left) path
    refine ⟨last, path, ?_⟩
    rcases turn_cases valid bounds.sized bounds.address with
      ⟨-, stopped⟩ | ⟨instruction, effect, found, -, allows, turned⟩
    · rw [stopped] at done
      cases done
    · have unexhausted : attempt.exhausted last = false := by
        cases exhausted : attempt.exhausted last with
        | false => rfl
        | true => simp [turn, exhausted] at done
      rw [turned] at done
      cases allows with
      | proceed => cases done
      | fail =>
          simp only [resolve] at done
          split at done <;> cases done
      | accept => cases done
      | stop misses =>
          cases misses with
          | clear empty =>
              exfalso
              apply nonempty_of_discards settled within found (.inl rfl)
              exact SaveStack.points_of_pop?_none empty
          | commit bound missing keep =>
              exact ⟨unexhausted,
                nonempty_of_discards settled within found (.inr ⟨_, _, rfl⟩),
                _, _, _, found, bound, SaveStack.commitTo?_eq_none_iff.mp missing⟩
  · intro reached
    rcases reached with ⟨state, path, unexhausted, -, target, keep, goal, found, bound, missing⟩
    have missing : state.counted.saves.commitTo? goal = none :=
      SaveStack.commitTo?_eq_none_iff.mpr missing
    refine ⟨{ state.counted with saves := .empty }, state, path,
      (turn_of_fetched unexhausted found).trans ?_⟩
    simp only [Instruction.step, State.commit, bound, missing]
    rfl

omit [CharacterData] in
theorem result_eq_missingSavePoint_iff {ending : Except Fault MatchStatus} :
    attempt.result ending state = .error .missingSavePoint ↔
      ending = .error .missingSavePoint := by
  cases ending with
  | error fault =>
      have reported : attempt.result (.error fault) state = .error fault := rfl
      rw [reported]
      simp only [Except.error.injEq]
  | ok status =>
      simp only [reduceCtorEq, iff_false]
      cases status with
      | accepted =>
          intro same
          simp only [result, Journal.toTable, CaptureTable.assign] at same
          split at same <;> cases same
      | noMatch => exact nofun
      | budgetExceeded => exact nofun

end Attempt

namespace Processor

variable {processor : Processor} {subject : Subject} {start : Nat}

theorem refusal?_ne_missingSavePoint {direction : Direction} :
    processor.refusal? subject start direction ≠ some (.error .missingSavePoint) := by
  unfold refusal?
  split
  · simp
  · split
    · simp
    · split
      · simp
      · split <;> simp

section

variable [CharacterData]

/-- An execution of a validated program ends for want of a save point just if
it comes to a commit that finds save points without its marked one among
them. Discarding a single save point never fails. -/
theorem execute_missingSavePoint_iff
    (validated : processor.program.validate = .ok ()) :
    (∃ fuel after, processor.execute fuel subject start processor.program.entry =
        some (.error .missingSavePoint, after)) ↔
      processor.busy = false ∧ (processor.attempt subject start).Admitted ∧
        ∃ state, (processor.attempt subject start).Reaches
            ((processor.attempt subject start).setOut processor.state) state ∧
          (processor.attempt subject start).Strands state := by
  have valid := Program.validate_eq_ok_iff.mp validated
  constructor
  · intro thrown
    rcases thrown with ⟨fuel, after, executed⟩
    cases busy : processor.busy with
    | true =>
        simp [execute, exclusively, busy] at executed
    | false =>
        by_cases admitted : (processor.attempt subject start).Admitted
        · refine ⟨rfl, admitted, ?_⟩
          rw [execute_of_admitted busy admitted] at executed
          simp only [Option.map_eq_some_iff, Prod.mk.injEq, Prod.exists] at executed
          rcases executed with ⟨ending, final, ran, same, -⟩
          rw [Attempt.result_eq_missingSavePoint_iff] at same
          rw [same] at ran
          exact (Attempt.ends_missingSavePoint_iff valid admitted _).mp
            ⟨final, Attempt.ends_of_run ran⟩
        · exfalso
          simp only [execute, exclusively, busy, Bool.false_eq_true, if_false,
            conduct] at executed
          cases refused : { processor with busy := true }.refusal? subject start
              processor.program.entry with
          | none => exact admitted (refusal?_eq_none_iff.mp refused).2
          | some result =>
              rw [refused] at executed
              cases executed
              exact refusal?_ne_missingSavePoint refused
  · intro given
    rcases given with ⟨free, admitted, stranded⟩
    have valid : (processor.attempt subject start).program.Valid := valid
    rcases (Attempt.ends_missingSavePoint_iff valid admitted processor.state).mpr stranded with
      ⟨final, ends⟩
    rcases ends.run with ⟨fuel, ran⟩
    refine ⟨fuel, { processor with state := final, busy := false }, ?_⟩
    rw [execute_of_admitted free admitted fuel, ran]
    rfl

def stranding : Processor where
  program :=
    { instructions := #[.save ⟨0⟩, .clear, .branch ⟨1⟩, .fail, .clearThrough ⟨0⟩ true,
        .accept]
      targets := #[some 5, some 4] }
  options := {}

end

open scoped Repertoire in
theorem stranding_misses :
    stranding.program.validate = .ok () ∧
      (∃ fuel after, stranding.execute fuel (.whole (.byUnits #[]) .codePoint) 0
        .forward = some (.error .missingSavePoint, after)) ∧
        ∃ state, (stranding.attempt (.whole (.byUnits #[]) .codePoint) 0).Strands
          state := by
  have validated : stranding.program.validate = .ok () := by cbv
  have reported : (stranding.execute 5 (.whole (.byUnits #[]) .codePoint) 0
      .forward).map Prod.fst = some (.error .missingSavePoint) := by cbv
  rcases Option.map_eq_some_iff.mp reported with ⟨⟨result, after⟩, executed, rfl⟩
  rcases (execute_missingSavePoint_iff validated).mp ⟨5, after, executed⟩ with
    ⟨-, -, state, -, strands⟩
  exact ⟨validated, ⟨5, after, executed⟩, state, strands⟩

end Processor

end RegexMachine
