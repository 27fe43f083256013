import RegexMachine.Proofs.Machine.Activations

/-! # Between a marked save point and its end

As long as a marked save point stays on the stack, a nested program stays between the
instruction that has pushed it and the commit to it. The save point is discarded by that
commit, or the machine returns to it. Either way the position and the stack are then those
at which it was pushed, and a register has changed only if an instruction in between
writes it. -/

namespace RegexMachine

inductive Instruction.Writes : Instruction → Register → Prop
  | startCount (counter : UInt16) : Writes (.repeatStart counter) (.count counter.toNat)
  | startOrigin (counter : UInt16) : Writes (.repeatStart counter) (.origin counter.toNat)
  | origin (greed : Greed) (min max : UInt32) (counter : UInt16) (exit : Label) :
      Writes (.quantify greed min max counter exit) (.origin counter.toNat)
  | count (counter : UInt16) (head : Label) :
      Writes (.repeatEnd counter head) (.count counter.toNat)
  | groupStart (group : UInt16) : Writes (.beginCapture group) (.groupStart group.toNat)
  | groupEnd (group : UInt16) : Writes (.endCapture group) (.groupEnd group.toNat)

def Program.WritesBetween (program : Program) (first last : Nat) (register : Register) : Prop :=
  ∃ address instruction, first < address ∧ address < last ∧
    program.instructions[address]? = some instruction ∧ instruction.Writes register

namespace Attempt

variable {attempt : Attempt} {state next : State} {save : SavePoint}
  {instruction : Instruction} {register : Register}

/-! ## One turn -/

variable [CharacterData]

theorem Next.resolve_eq (step : attempt.Next state next)
    (found : attempt.program.instructions[state.address]? = some instruction) :
    attempt.exhausted state = false ∧
      resolve (instruction.step attempt.program attempt.subject state.counted) =
        .next next := by
  cases exhausted : attempt.exhausted state with
  | true =>
      rw [Next, turn, if_pos exhausted] at step
      cases step
  | false =>
      rw [Next, turn_of_fetched exhausted found] at step
      exact ⟨rfl, step⟩

theorem Next.steady (step : attempt.Next state next) (valid : attempt.program.Valid)
    (bounds : attempt.Bounds state) (member : save ∈ next.saves.points) {older : Journal}
    (height : save.height = older.height) (extension : state.journal.Extends older)
    (silent : ∀ instruction, attempt.program.instructions[state.address]? = some instruction →
      ¬instruction.Writes register)
    (steady : state.journal.Steady older register) : next.journal.Steady older register := by
  have contains : attempt.Contains state.counted := bounds.toContains.goTo _ _
  rcases step.cases valid bounds.sized bounds.address with
    ⟨instruction, found, resolves, proceeds | back⟩
  · have silent := silent instruction found
    -- A register that is written is another one than the silent one.
    have other {written : Register} (writes : instruction.Writes written) :
        written ≠ register := by
      intro same
      rw [same] at writes
      exact silent writes
    cases proceeds with
    | start counter =>
        have counted := steady.write extension (Register.fits_count _ _)
          (other (.startCount counter)) (some 0)
        exact counted.write ((Journal.Extends.write _ _ _).trans extension)
          (Register.fits_origin _ _) (other (.startOrigin counter)) _
    | demand | more | less =>
        exact steady.write extension (Register.fits_origin _ _) (other (.origin _ _ _ _ _)) _
    | again => exact steady.write extension (Register.fits_count _ _) (other (.count _ _)) _
    | setStart group inside =>
        exact steady.write extension (Register.fits_groupStart inside)
          (other (.groupStart group)) _
    | setEnd group inside =>
        exact steady.write extension (Register.fits_groupEnd inside) (other (.groupEnd group)) _
    | commit bound committed keep =>
        rcases SaveStack.points_of_commitTo? committed with ⟨above, shape, -⟩
        have higher := contains.height_le shape save member
        cases keep with
        | true => exact steady
        | false => exact steady.rollBack _ (height ▸ higher)
    | _ => exact steady
  · rcases State.backtrack?_eq_some back with ⟨popped, rest, shape, rfl⟩
    have newest : state.counted.saves.points = [] ++ popped :: rest.points := shape
    exact steady.rollBack _ (height ▸ contains.height_le newest save member)

end Attempt

/-! ## Brackets -/

/-- What is pushed at the one address is committed to at the other one, and resumes two
instructions behind it. -/
structure Program.Encloses (program : Program) (opening closing : Nat) (label : Label)
    (keep : Bool) : Prop where
  opens : program.instructions[opening]? = some (.save label)
  closes : program.instructions[closing]? = some (.clearThrough label keep)
  bound : program.target? label = some (closing + 2)
  enclosed : program.openSaves closing = opening :: program.openSaves opening

namespace Program.Encloses

variable {program : Program} {opening closing address : Nat} {label : Label} {keep : Bool}

theorem not_mem_openSaves (encloses : program.Encloses opening closing label keep)
    (behind : closing < address) : opening ∉ program.openSaves address := by
  have inside : opening ∈ program.openSaves closing := by
    rw [encloses.enclosed]
    exact List.mem_cons_self
  have before := lt_of_mem_openSaves inside
  refine Program.not_mem_openSaves ?_ (Nat.lt_succ_of_lt before) behind
  rw [openSaves_clearThrough encloses.closes, encloses.enclosed, List.tail_cons]
  exact fun member => Nat.lt_irrefl _ (lt_of_mem_openSaves member)

theorem closing_unique (encloses : program.Encloses opening closing label keep)
    (nested : program.Nested) {other : Label} {kept : Bool}
    (found : program.instructions[address]? = some (.clearThrough other kept))
    (bound : program.target? other = some (closing + 2)) : address = closing := by
  rcases nested _ _ found with ⟨start, opens, open_⟩
  have same : start = opening := nested.save_unique encloses.opens encloses.bound opens bound
  subst same
  have before : start ∈ program.openSaves address := by
    rw [open_]
    exact List.mem_cons_self
  rcases Nat.lt_trichotomy address closing with earlier | here | later
  · have closed : start ∉ program.openSaves (address + 1) := by
      rw [openSaves_clearThrough found, open_, List.tail_cons]
      exact fun member => Nat.lt_irrefl _ (lt_of_mem_openSaves member)
    have after := lt_of_mem_openSaves before
    have absent := Program.not_mem_openSaves closed (Nat.lt_succ_of_lt after) earlier
    rw [encloses.enclosed] at absent
    exact absurd List.mem_cons_self absent
  · exact here
  · exact absurd before (encloses.not_mem_openSaves later)

end Program.Encloses

theorem Program.Nested.encloses {program : Program} (nested : program.Nested)
    {opening closing : Nat} {label : Label} {keep : Bool}
    (opens : program.instructions[opening]? = some (.save label))
    (bound : program.target? label = some (closing + 2))
    (closes : program.instructions[closing]? = some (.clearThrough label keep)) :
    program.Encloses opening closing label keep := by
  rcases nested _ _ opens with ⟨-, commit, _, -, resumes, enclosed⟩
  rw [bound, Option.some.injEq, Nat.add_right_cancel_iff] at resumes
  rw [← resumes] at enclosed
  exact ⟨opens, closes, bound, enclosed⟩

theorem SaveStack.Bears.push {stack below : SaveStack} {save : SavePoint}
    (bears : stack.Bears below save) (newest : SavePoint) :
    (stack.push newest).Bears below save := by
  rcases bears with ⟨above, shape⟩
  exact ⟨newest :: above, congrArg (newest :: ·) shape⟩

theorem SavePoint.found_of_unmarked {above own below rest : List SavePoint}
    {marked found : SavePoint} (shape : above ++ marked :: below = own ++ found :: rest)
    (unmarked : ∀ other ∈ own, other.marker = false) (marker : marked.marker = true) :
    (∃ left, rest = left ++ marked :: below) ∨ found = marked ∧ rest = below := by
  rcases List.append_eq_append_iff.mp shape with ⟨more, same, split⟩ | ⟨more, same, split⟩
  · cases more with
    | nil =>
        rw [List.nil_append, List.cons.injEq] at split
        exact .inr ⟨split.1.symm, split.2.symm⟩
    | cons newest more =>
        rw [List.cons_append, List.cons.injEq] at split
        have member : marked ∈ own := by
          rw [same, split.1]
          exact List.mem_append_right above List.mem_cons_self
        exact absurd marker (Bool.eq_false_iff.mp (unmarked _ member))
  · cases more with
    | nil =>
        rw [List.nil_append, List.cons.injEq] at split
        exact .inr split
    | cons newest more =>
        rw [List.cons_append, List.cons.injEq] at split
        exact .inl ⟨more, split.2⟩

def State.mark (state : State) (resume : Nat) : SavePoint :=
  ⟨resume, state.position, state.journal.height, true⟩

/-- A commit takes away nothing but unmarked save points and the marked one that it
finds. -/
theorem State.Fits.commit_shape {program : Program} {state : State} {label : Label}
    {keep : Bool} {goal : Nat} {save : SavePoint} {rest : SaveStack}
    (fits : state.Fits program) (nested : program.Nested)
    (found : program.instructions[state.address]? = some (.clearThrough label keep))
    (bound : program.target? label = some goal)
    (committed : state.saves.commitTo? goal = some (save, rest)) :
    ∃ own, state.saves.points = own ++ save :: rest.points ∧
      ∀ other ∈ own, other.marker = false := by
  rcases nested _ _ found with ⟨opening, opens, enclosing⟩
  rw [State.Fits, enclosing] at fits
  rcases fits.innermost with
    ⟨own, newest, below, other, shape, unmarked, marker, pushes, resumes, -, -⟩
  rw [opens] at pushes
  cases pushes
  rw [bound] at resumes
  cases resumes
  have above : state.saves.Above (SaveStack.push ⟨below, below.length, rfl⟩ newest) :=
    ⟨own, shape, unmarked⟩
  rw [above.commitTo? marker] at committed
  cases committed
  exact ⟨own, shape, unmarked⟩

namespace Attempt

variable {attempt : Attempt} {state next pusher : State} {closing : Nat}
  {label : Label} {keep : Bool} {instruction : Instruction} {register : Register}

/-- The save point that was pushed in the state `pusher` is on the stack, and the journal
goes on from that moment. -/
structure Inside (attempt : Attempt) (pusher : State) (closing : Nat) (state : State) :
    Prop where
  bears : state.saves.Bears pusher.saves (pusher.mark (closing + 2))
  extension : state.journal.Extends pusher.journal
  steady : ∀ register, ¬attempt.program.WritesBetween pusher.address closing register →
    state.journal.Steady pusher.journal register

/-- The save point is gone, and apart from the registers that may have been written in
between, and from their journal, everything is as it was in the state `pusher`. Without
captures to keep, these are as they were, too. -/
structure Returned (attempt : Attempt) (pusher : State) (closing : Nat) (keep : Bool)
    (state : State) : Prop where
  position : state.position = pusher.position
  saves : state.saves = pusher.saves
  journal : keep = false → state.journal = pusher.journal
  registers : ∀ register,
    ¬attempt.program.WritesBetween pusher.address closing register →
      state.journal.held register = pusher.journal.held register

theorem Returned.weaken (returned : attempt.Returned pusher closing false state) (keep : Bool) :
    attempt.Returned pusher closing keep state :=
  ⟨returned.position, returned.saves, fun _ => returned.journal rfl, returned.registers⟩

namespace Inside

theorem address (inside : attempt.Inside pusher closing state)
    (nested : attempt.program.Nested) (fits : state.Fits attempt.program)
    (encloses : attempt.program.Encloses pusher.address closing label keep) :
    pusher.address < state.address ∧ state.address ≤ closing := by
  rcases fits.exists_opening inside.bears.mem rfl with ⟨opening, opens, _, found, bound⟩
  obtain rfl := nested.save_unique encloses.opens encloses.bound found bound
  refine ⟨Program.lt_of_mem_openSaves opens, Nat.le_of_not_lt fun behind => ?_⟩
  exact encloses.not_mem_openSaves behind opens

theorem silent (inside : attempt.Inside pusher closing state)
    (nested : attempt.program.Nested) (fits : state.Fits attempt.program)
    (encloses : attempt.program.Encloses pusher.address closing label keep)
    (quiet : ¬attempt.program.WritesBetween pusher.address closing register)
    (found : attempt.program.instructions[state.address]? = some instruction) :
    ¬instruction.Writes register := by
  intro writes
  rcases inside.address nested fits encloses with ⟨behind, before⟩
  rcases Nat.eq_or_lt_of_le before with here | earlier
  · rw [here, encloses.closes] at found
    cases found
    cases writes
  · exact quiet ⟨_, instruction, behind, earlier, found, writes⟩

variable [CharacterData]

theorem stays (inside : attempt.Inside pusher closing state) (step : attempt.Next state next)
    (valid : attempt.program.Valid) (nested : attempt.program.Nested)
    (bounds : attempt.Bounds state) (fits : state.Fits attempt.program)
    (encloses : attempt.program.Encloses pusher.address closing label keep)
    (bears : next.saves.Bears pusher.saves (pusher.mark (closing + 2))) :
    attempt.Inside pusher closing next where
  bears := bears
  extension := step.extends valid bounds bears.mem rfl inside.extension
  steady register quiet := step.steady valid bounds bears.mem rfl inside.extension
    (fun _ => inside.silent nested fits encloses quiet) (inside.steady register quiet)

omit [CharacterData] in
theorem returned (inside : attempt.Inside pusher closing state)
    (position : next.position = pusher.position) (saves : next.saves = pusher.saves)
    (journal : next.journal =
      if keep then state.journal
      else state.journal.rollBack (pusher.mark (closing + 2)).height) :
    attempt.Returned pusher closing keep next := by
  have rolled : state.journal.rollBack (pusher.mark (closing + 2)).height = pusher.journal :=
    inside.extension
  rw [rolled] at journal
  refine ⟨position, saves, ?_, fun register quiet => ?_⟩
  · rintro rfl
    exact journal
  · cases keep with
    | true =>
        have kept : next.journal = state.journal := journal
        rw [kept]
        exact (inside.steady register quiet).held_eq inside.extension
    | false => exact congrArg (·.held register) journal

/-- A turn leaves the save point on the stack, or it takes the save point away and comes to
one of the two instructions behind the commit. -/
theorem turn (inside : attempt.Inside pusher closing state) (step : attempt.Next state next)
    (valid : attempt.program.Valid) (nested : attempt.program.Nested)
    (bounds : attempt.Bounds state) (fits : state.Fits attempt.program)
    (encloses : attempt.program.Encloses pusher.address closing label keep) :
    attempt.Inside pusher closing next ∨ attempt.Returned pusher closing keep next ∧
      (next.address = closing + 1 ∨ next.address = closing + 2) := by
  have stays := inside.stays step valid nested bounds fits encloses
  rcases inside.bears with ⟨above, points⟩
  rcases step.cases valid bounds.sized bounds.address with
    ⟨instruction, found, -, proceeds | back⟩
  · cases proceeds with
    | branch => exact .inl (stays (inside.bears.push _))
    | save => exact .inl (stays (inside.bears.push _))
    | more => exact .inl (stays (inside.bears.push _))
    | less => exact .inl (stays (inside.bears.push _))
    | clear => exact (nested _ _ found).elim
    | @commit other goal save rest bound committed kept =>
        rcases fits.commit_shape nested found bound committed with ⟨own, shape, unmarked⟩
        rw [points] at shape
        rcases SavePoint.found_of_unmarked shape unmarked rfl with ⟨left, shape⟩ | ⟨rfl, same⟩
        · exact .inl (stays ⟨left, shape⟩)
        · rcases SaveStack.points_of_commitTo? committed with ⟨-, -, -, rfl⟩
          have here := encloses.closing_unique nested found bound
          rw [here, encloses.closes] at found
          cases found
          exact .inr ⟨inside.returned rfl (SaveStack.eq_of_points same) rfl,
            .inl (congrArg (· + 1) here)⟩
    | _ => exact .inl (stays inside.bears)
  · rcases State.backtrack?_eq_some back with ⟨popped, rest, shape, rfl⟩
    have shape : state.saves.points = popped :: rest.points := shape
    rw [points] at shape
    cases above with
    | nil =>
        rw [List.nil_append, List.cons.injEq] at shape
        rcases shape with ⟨rfl, same⟩
        refine .inr ⟨Returned.weaken ?_ keep, .inr rfl⟩
        exact inside.returned rfl (SaveStack.eq_of_points same.symm) rfl
    | cons newest above =>
        rw [List.cons_append, List.cons.injEq] at shape
        exact .inl (stays ⟨above, shape.2.symm⟩)

end Inside

/-! ## Leaving -/

variable [CharacterData]

theorem Next.backtracks (step : attempt.Next state next)
    (found : attempt.program.instructions[state.address]? = some .fail) :
    attempt.Backtracks state next := by
  rcases step.resolve_eq found with ⟨unexhausted, resolved⟩
  refine ⟨unexhausted, .fail, state.counted, found, rfl, ?_⟩
  rw [Instruction.step, resolve] at resolved
  split at resolved
  · next back =>
      cases resolved
      exact back
  · cases resolved

def StaysAbove (attempt : Attempt) (base : SaveStack) (state next : State) : Prop :=
  attempt.Next state next ∧
    (attempt.Backtracks state next → base.size < state.saves.size)

/-- Executing the instruction at hand and some more, with no return to a save point from
before, the machine comes to the address for the first time. -/
def ComesTo (attempt : Attempt) (last : Nat) (pusher arrival : State) : Prop :=
  ∃ first, attempt.Next pusher first ∧ arrival.address = last ∧
    Relation.ReflTransGen
      (fun state next => attempt.StaysAbove pusher.saves state next ∧ state.address ≠ last)
      first arrival

end Attempt

/-- How the address `last` is reached behind the commit: by the end of the save point, when
the commit leads to a failure, or by a jump across the failure to which the end of the save
point leads. -/
inductive Program.Leaves (program : Program) (closing : Nat) : Nat → Prop
  | resume (refuses : program.instructions[closing + 1]? = some .fail) :
      Leaves program closing (closing + 2)
  | across {done : Label} (jumps : program.instructions[closing + 1]? = some (.jump done))
      (bound : program.target? done = some (closing + 3))
      (refuses : program.instructions[closing + 2]? = some .fail) :
      Leaves program closing (closing + 3)

theorem Program.Leaves.behind {program : Program} {closing last : Nat}
    (leaves : program.Leaves closing last) : closing + 1 < last := by
  cases leaves <;> omega

namespace Attempt

variable {attempt : Attempt} {state next pusher arrival : State} {closing last : Nat}
  {label : Label} {keep : Bool}

variable [CharacterData]

/-- With the stack as it was at first, failing means to return to a save point from
before. -/
theorem Returned.not_fail (returned : attempt.Returned pusher closing keep state)
    (stays : attempt.StaysAbove pusher.saves state next)
    (found : attempt.program.instructions[state.address]? = some .fail) : False := by
  have higher := stays.2 (stays.1.backtracks found)
  rw [returned.saves] at higher
  exact Nat.lt_irrefl _ higher

theorem Returned.turn (returned : attempt.Returned pusher closing keep state)
    (leaves : attempt.program.Leaves closing last)
    (here : state.address = closing + 1 ∨ state.address = closing + 2)
    (elsewhere : state.address ≠ last)
    (stays : attempt.StaysAbove pusher.saves state next) :
    attempt.Returned pusher closing keep next ∧ next.address = last := by
  cases leaves with
  | resume refuses =>
      rcases here with here | here
      · rw [← here] at refuses
        exact (returned.not_fail stays refuses).elim
      · exact absurd here elsewhere
  | across jumps bound refuses =>
      rcases here with here | here
      · rw [← here] at jumps
        rcases stays.1.resolve_eq jumps with ⟨-, resolved⟩
        rw [Instruction.step, State.goTo, bound] at resolved
        cases resolved
        exact ⟨⟨returned.position, returned.saves, returned.journal, returned.registers⟩, rfl⟩
      · rw [← here] at refuses
        exact (returned.not_fail stays refuses).elim

theorem inside_of_next (step : attempt.Next pusher next)
    (encloses : attempt.program.Encloses pusher.address closing label keep) :
    attempt.Inside pusher closing next := by
  rcases step.resolve_eq encloses.opens with ⟨-, resolved⟩
  rw [Instruction.step, encloses.bound] at resolved
  cases resolved
  exact ⟨⟨[], rfl⟩, .refl _, fun register _ => .refl _ register⟩

/-- A property that every turn inside keeps, and hands on to another one when it leads out, is
handed on to where the machine leaves. -/
theorem handed_on_of_comesTo (inner outer : State → Prop) (valid : attempt.program.Valid)
    (nested : attempt.program.Nested) (bounds : attempt.Bounds pusher)
    (fits : pusher.Fits attempt.program)
    (encloses : attempt.program.Encloses pusher.address closing label keep)
    (leaves : attempt.program.Leaves closing last)
    (comes : attempt.ComesTo last pusher arrival)
    (enters : ∀ first, attempt.Next pusher first → inner first)
    (turns : ∀ state next, attempt.Reaches pusher state → attempt.Inside pusher closing state →
      inner state → attempt.Next state next →
        (attempt.Inside pusher closing next → inner next) ∧
          (attempt.Returned pusher closing keep next → outer next))
    (behind : ∀ state next, attempt.Returned pusher closing keep state → outer state →
      state.address = closing + 1 ∨ state.address = closing + 2 → state.address ≠ last →
        attempt.StaysAbove pusher.saves state next → outer next) :
    attempt.Returned pusher closing keep arrival ∧ outer arrival := by
  obtain ⟨first, step, arrives, path⟩ := comes
  have entered := inside_of_next step encloses
  -- Until it leaves, the machine is inside or right behind the commit.
  have along : attempt.Reaches pusher arrival ∧
      (attempt.Inside pusher closing arrival ∧ inner arrival ∨
        (attempt.Returned pusher closing keep arrival ∧ outer arrival) ∧
          (arrival.address = closing + 1 ∨ arrival.address = closing + 2 ∨
            arrival.address = last)) := by
    clear arrives
    induction path with
    | refl => exact ⟨step.reaches, .inl ⟨entered, enters first step⟩⟩
    | tail _ turn induction =>
        obtain ⟨stays, elsewhere⟩ := turn
        obtain ⟨path, ⟨inside, holds⟩ | ⟨⟨returned, holds⟩, here⟩⟩ := induction
        · have fits := fits_reaches valid nested bounds fits path
          have handed := turns _ _ path inside holds stays.1
          refine ⟨path.tail stays.1, ?_⟩
          rcases inside.turn stays.1 valid nested (bounds.reaches valid path) fits encloses with
            inside | ⟨returned, here⟩
          · exact .inl ⟨inside, handed.1 inside⟩
          · exact .inr ⟨⟨returned, handed.2 returned⟩, here.imp_right .inl⟩
        · have here := here.imp_right fun here => here.resolve_right elsewhere
          have left := returned.turn leaves here elsewhere stays
          have holds := behind _ _ returned holds here elsewhere stays
          exact ⟨path.tail stays.1, .inr ⟨⟨left.1, holds⟩, .inr (.inr left.2)⟩⟩
  obtain ⟨path, ⟨inside, -⟩ | ⟨left, -⟩⟩ := along
  · have inner := inside.address nested (fits_reaches valid nested bounds fits path) encloses
    have behind := leaves.behind
    omega
  · exact left

/-- Whatever happens in between, the machine leaves as it has entered, except for the
registers that are written in between. -/
theorem returned_of_comesTo (valid : attempt.program.Valid) (nested : attempt.program.Nested)
    (bounds : attempt.Bounds pusher) (fits : pusher.Fits attempt.program)
    (encloses : attempt.program.Encloses pusher.address closing label keep)
    (leaves : attempt.program.Leaves closing last)
    (comes : attempt.ComesTo last pusher arrival) :
    attempt.Returned pusher closing keep arrival :=
  (handed_on_of_comesTo (fun _ => True) (fun _ => True) valid nested bounds fits encloses leaves
    comes (fun _ _ => trivial) (fun _ _ _ _ _ _ => ⟨fun _ => trivial, fun _ => trivial⟩)
    fun _ _ _ _ _ _ _ => trivial).1

end Attempt

end RegexMachine
