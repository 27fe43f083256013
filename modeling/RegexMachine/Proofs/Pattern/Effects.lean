import RegexMachine.Proofs.Pattern.Calls
import RegexMachine.Proofs.Pattern.Emission
import RegexMachine.Proofs.Program.Rejections

/-! # What a call does to an encoder

A call that stops halfway leaves the pools, tables and counts of the encoder larger than it
found them. It takes back nothing, though, and appends no instruction. One that returns an
address has appended one instruction there, which stands for what the call was given in
whatever becomes of the program. -/

namespace RegexMachine

namespace Encoder

/-! ## Calls that append nothing -/

structure Keeps (after encoder : Encoder) : Prop where
  prolongs : after.program.Prolongs encoder.program
  finished : after.finished = encoder.finished
  instructions : after.program.instructions = encoder.program.instructions

/-- Whether it returns or not, the action appends nothing. -/
def Quiet {α : Type} (action : Encode α) : Prop :=
  ∀ encoder : Encoder, (encoder.leftBy action).Keeps encoder

variable {α β : Type} {encoder middle after : Encoder} {instruction : Instruction}
  {group : UInt16}

namespace Keeps

theorem refl (encoder : Encoder) : encoder.Keeps encoder := ⟨.refl _, rfl, rfl⟩

theorem trans (second : after.Keeps middle) (first : middle.Keeps encoder) :
    after.Keeps encoder where
  prolongs := second.prolongs.trans first.prolongs
  finished := second.finished.trans first.finished
  instructions := second.instructions.trans first.instructions

end Keeps

namespace Quiet

variable {first : Encode α} {second : α → Encode β}

theorem bind (front : Quiet first) (back : ∀ value, Quiet (second value)) :
    Quiet (first >>= second) := by
  intro encoder
  have keeps := front encoder
  cases returned : first encoder with
  | ok value middle =>
      rw [leftBy_of_ok returned] at keeps
      rw [leftBy_bind_of_ok returned]
      exact (back value middle).trans keeps
  | error fault middle =>
      rw [leftBy_of_error returned] at keeps
      rw [leftBy_bind_of_error returned]
      exact keeps

theorem pure (value : α) : Quiet (Pure.pure value) := fun encoder => .refl encoder

theorem throw (fault : Fault) : Quiet (throw fault : Encode α) := fun encoder => .refl encoder

theorem get : Quiet get := fun encoder => .refl encoder

theorem orStop (operand : Option α) (fault : Fault) : Quiet (orStop operand fault) := by
  cases operand with
  | none => exact throw fault
  | some value => exact pure value

theorem freshLabel : Quiet freshLabel := by
  have grows : Quiet (changeGet (·.targets.size) fun program =>
      { program with targets := program.targets.push none }) :=
    fun encoder => ⟨.label encoder.program, rfl, rfl⟩
  refine grows.bind fun id => ?_
  split
  · exact pure _
  · exact throw _

theorem bindLabel (label : Label) : Quiet (bindLabel label) := by
  intro encoder
  by_cases unbound : encoder.program.targets[label.id.toNat]? = some none
  · have returns : Encoder.bindLabel label encoder = .ok () _ :=
      bindLabel_eq_ok.mpr ⟨unbound, rfl⟩
    rw [leftBy_of_ok returns]
    exact ⟨.binding unbound _, rfl, rfl⟩
  · have stops : Encoder.bindLabel label encoder = .error .branchTarget encoder := by
      change (if encoder.program.targets[label.id.toNat]? = some none then _ else
        MonadExcept.throw Fault.branchTarget : Encode Unit) encoder = _
      rw [if_neg unbound]
      rfl
    rw [leftBy_of_error stops]
    exact .refl encoder

theorem reserveGroup (group : UInt16) : Quiet (reserveGroup group) := by
  have grows : Quiet (change fun program =>
      { program with captureCount := max program.captureCount (group.toNat + 1) }) :=
    fun encoder => ⟨.group encoder.program _, rfl, rfl⟩
  rw [Encoder.reserveGroup]
  split
  · exact (throw _).bind fun _ => grows
  · exact grows

theorem freshGroup : Quiet freshGroup :=
  get.bind fun _ => (orStop _ _).bind fun group => (reserveGroup group).bind fun _ => pure group

theorem freshCounter : Quiet freshCounter := by
  have grows : Quiet (change fun program =>
      { program with counterCount := program.counterCount + 1 }) :=
    fun encoder => ⟨.counter encoder.program, rfl, rfl⟩
  exact get.bind fun _ => (orStop _ _).bind fun counter => grows.bind fun _ => pure counter

/-- A literal that turns out too long stays in its pool. -/
theorem addLiteral (literal : Octets) : Quiet (addLiteral literal) := by
  have grows : Quiet (changeGet (·.data.size) fun program =>
      { program with data := program.data ++ literal }) :=
    fun encoder => ⟨.literal encoder.program literal, rfl, rfl⟩
  exact grows.bind fun _ => (orStop _ _).bind fun _ => (orStop _ _).bind fun _ => pure _

theorem addRuneSet (set : RuneSet) : Quiet (addRuneSet set) := by
  have grows : Quiet (changeGet (·.runeSets.size) fun program =>
      { program with runeSets := program.runeSets.push set }) :=
    fun encoder => ⟨.runeSet encoder.program set, rfl, rfl⟩
  exact grows.bind fun _ => orStop _ _

end Quiet

/-! ## Calls that append an instruction -/

theorem append_prolongs (encoder : Encoder) (instruction : Instruction) :
    (encoder.leftBy (append instruction)).program.Prolongs encoder.program := by
  cases finished : encoder.finished with
  | true =>
      rw [leftBy_of_error (append_of_finished finished)]
      exact .refl _
  | false =>
      rw [leftBy_of_ok (append_eq_ok.mpr ⟨finished, rfl, rfl⟩)]
      exact .instruction encoder.program instruction

/-- The action stops without having appended anything, or it appends one instruction, which
stands for what the action was given from there on. -/
def Places (action : Encode Nat) (stands : Program → Instruction → Prop) : Prop :=
  ∀ encoder : Encoder,
    (∃ fault, ∃ middle : Encoder,
      action encoder = .error fault middle ∧ middle.Keeps encoder) ∨
      ∃ (middle : Encoder) (instruction : Instruction),
        action encoder = .ok encoder.address (middle.appended instruction) ∧
        middle.Keeps encoder ∧ encoder.finished = false ∧
        ∀ final : Program, final.Prolongs (middle.appended instruction).program →
          stands final instruction

namespace Places

variable {stands : Program → Instruction → Prop}

/-- Operands come first, and an encoder that has finished takes no instruction even then. -/
theorem prepared {prepare : Encode α} {build : α → Instruction} (quiet : Quiet prepare)
    (each : ∀ encoder value middle, prepare encoder = .ok value middle →
      ∀ final : Program, final.Prolongs middle.program → stands final (build value)) :
    Places (prepare >>= fun value => append (build value)) stands := by
  intro encoder
  have keeps := quiet encoder
  cases returned : prepare encoder with
  | error fault middle =>
      rw [leftBy_of_error returned] at keeps
      exact .inl ⟨fault, middle, bind_of_error returned, keeps⟩
  | ok value middle =>
      rw [leftBy_of_ok returned] at keeps
      cases finished : middle.finished with
      | true =>
          have stops : (prepare >>= fun value => append (build value)) encoder =
              .error .finished middle := by
            change EStateM.bind prepare _ encoder = _
            rw [EStateM.bind, returned]
            exact append_of_finished finished
          exact .inl ⟨_, _, stops, keeps⟩
      | false =>
          have same : encoder.address = middle.address :=
            congrArg Array.size keeps.instructions.symm
          refine .inr ⟨middle, build value, ?_, keeps, keeps.finished ▸ finished, ?_⟩
          · exact bind_eq_ok.mpr ⟨value, middle, returned,
              append_eq_ok.mpr ⟨finished, same, rfl⟩⟩
          · intro final prolongs
            exact each encoder value middle returned final
              (prolongs.trans (.instruction middle.program _))

theorem append (instruction : Instruction) (holds : ∀ final, stands final instruction) :
    Places (append instruction) stands :=
  prepared (Quiet.pure ()) fun _ _ _ _ final _ => holds final

theorem throw (fault : Fault) : Places (throw fault) stands :=
  fun encoder => .inl ⟨fault, encoder, rfl, .refl encoder⟩

theorem ofGroup (instruction : Instruction)
    (holds : ∀ final : Program, group ≠ 0 ∧ group.toNat < final.captureCount →
      stands final instruction) :
    Places (reserveGroup group >>= fun _ => Encoder.append instruction) stands := by
  refine prepared (Quiet.reserveGroup group) fun encoder _ middle returns final prolongs => ?_
  obtain ⟨named, rfl⟩ := reserveGroup_eq_ok.mp returns
  exact holds final ⟨named, Nat.le_trans (Nat.le_max_right _ _) prolongs.groups⟩

end Places

variable [CharacterData]

/-- In the program, the instruction stands for what the call was given. -/
def Emission.Stands (program : Program) (instruction : Instruction) : Emission → Prop
  | matchString literal direction flags =>
      ∃ offset length slice,
        instruction = .matchString direction offset length (flags.has .caseless)
          (flags.has .boundary) ∧
        program.literal? offset length = some slice ∧
        slice.toOctets = if flags.has .caseless then literal.foldCase Rune.caseFold else literal
  | matchAny direction flags =>
      instruction = .matchAny direction (flags.has .newline) (flags.has .boundary)
  | matchClass runeClass direction flags negated =>
      instruction = .matchClass direction runeClass negated (flags.has .boundary)
  | matchSet ranges direction flags negated =>
      ∃ index set,
        instruction = .matchSet direction index negated (flags.has .caseless)
          (flags.has .boundary) ∧
        set.Gathers ranges (flags.has .caseless) ∧ program.runeSets[index.toNat]? = some set
  | matchBackref group direction flags =>
      instruction = .matchBackref direction group (flags.has .caseless) (flags.has .boundary) ∧
        group ≠ 0 ∧ group.toNat < program.captureCount
  | advance count direction =>
      ∃ word, instruction = .advance direction word ∧ word.toNat = count
  | quantify greed min max counter exit =>
      instruction = .quantify greed min max counter exit ∧ min ≤ max
  | beginCapture group =>
      instruction = .beginCapture group ∧ group ≠ 0 ∧ group.toNat < program.captureCount
  | endCapture group =>
      instruction = .endCapture group ∧ group ≠ 0 ∧ group.toNat < program.captureCount
  | plain given _ => instruction = given

namespace Places

theorem matchSet (ranges : List Interval) (direction : Direction) (flags : MatchFlags)
    (negated : Bool) :
    Places (Encoder.matchSet ranges direction flags negated) fun final instruction =>
      (Emission.matchSet ranges direction flags negated).Stands final instruction := by
  rw [Encoder.matchSet]
  cases gathered : gatherRanges ranges (flags.has .caseless) with
  | error fault => exact throw fault
  | ok set =>
      refine prepared (Quiet.addRuneSet set) fun encoder index middle returns final prolongs => ?_
      exact ⟨index, set, rfl, gathers_of_gatherRanges gathered,
        runeSet_stays returns prolongs⟩

theorem quantify (greed : Greed) (min max : UInt32) (counter : UInt16) (exit : Label) :
    Places (Encoder.quantify greed min max counter exit) fun final instruction =>
      (Emission.quantify greed min max counter exit).Stands final instruction := by
  rw [Encoder.quantify]
  split
  · exact fun encoder => .inl ⟨.quantifier, encoder, rfl, .refl encoder⟩
  · next ordered => exact append _ fun final => ⟨rfl, UInt32.not_lt.mp ordered⟩

end Places

theorem Emission.places (emission : Emission) :
    Places emission.perform fun final instruction => emission.Stands final instruction := by
  cases emission with
  | matchString literal direction flags =>
      refine .prepared (Quiet.addLiteral _) fun encoder place middle returns final prolongs => ?_
      obtain ⟨slice, found, same⟩ := literal_stays returns prolongs
      exact ⟨place.1, place.2, slice, rfl, found, same⟩
  | matchAny => exact .append _ fun _ => rfl
  | matchClass => exact .append _ fun _ => rfl
  | matchSet ranges direction flags negated => exact .matchSet ranges direction flags negated
  | matchBackref => exact .ofGroup _ fun _ named => ⟨rfl, named⟩
  | advance count direction =>
      refine .prepared (Quiet.orStop _ _) fun encoder word middle returns final prolongs => ?_
      exact ⟨word, rfl, word32?_eq_some_iff.mp (orStop_eq_ok.mp returns).1⟩
  | quantify greed min max counter exit => exact .quantify greed min max counter exit
  | beginCapture => exact .ofGroup _ fun _ named => ⟨rfl, named⟩
  | endCapture => exact .ofGroup _ fun _ named => ⟨rfl, named⟩
  | plain given _ => exact .append given fun _ => rfl

theorem Emission.Stands.refers {emission : Emission} {program : Program}
    (stands : emission.Stands program instruction) : instruction.Refers program := by
  cases emission with
  | matchString literal direction flags =>
      obtain ⟨offset, length, slice, rfl, found, -⟩ := stands
      rw [Program.literal?] at found
      split at found
      · next fits => exact fits
      · cases found
  | matchSet ranges direction flags negated =>
      obtain ⟨index, set, rfl, -, found⟩ := stands
      exact (Array.getElem?_eq_some_iff.mp found).1
  | matchBackref => exact stands.1 ▸ stands.2
  | quantify => exact stands.1 ▸ stands.2
  | beginCapture => exact stands.1 ▸ stands.2
  | endCapture => exact stands.1 ▸ stands.2
  | advance count direction =>
      obtain ⟨word, rfl, -⟩ := stands
      trivial
  | matchAny => cases stands; trivial
  | matchClass => cases stands; trivial
  | plain given bare =>
      cases stands
      cases instruction with
      | matchString | matchSet | matchBackref | beginCapture | endCapture | quantify => cases bare
      | _ => trivial

omit [CharacterData] in
theorem group_lt_of_reserved (positive : 0 < encoder.program.captureCount)
    (instruction : Instruction) :
    group.toNat < (encoder.leftBy
      (reserveGroup group >>= fun _ => append instruction)).program.captureCount := by
  by_cases zero : group = 0
  · have stops : reserveGroup group encoder = .error .captureGroup encoder := by
      rw [zero]
      rfl
    rw [leftBy_bind_of_error stops, zero]
    exact positive
  · have returns : reserveGroup group encoder = .ok () _ := reserveGroup_eq_ok.mpr ⟨zero, rfl⟩
    rw [leftBy_bind_of_ok returns]
    refine Nat.lt_of_lt_of_le ?_ (append_prolongs _ _).groups
    exact Nat.le_max_right _ _

theorem Emission.group_lt (emission : Emission) (named : emission.group? = some group)
    (positive : 0 < encoder.program.captureCount) :
    group.toNat < (encoder.leftBy emission.perform).program.captureCount := by
  cases emission with
  | matchBackref => cases named; exact group_lt_of_reserved positive _
  | beginCapture => cases named; exact group_lt_of_reserved positive _
  | endCapture => cases named; exact group_lt_of_reserved positive _
  | _ => cases named

/-! ## Calls on an encoder that has finished -/

theorem unfinished_of_call (call : Call)
    (unfinished : (encoder.leftBy call.perform).finished = false) :
    encoder.finished = false := by
  cases call with
  | label => exact (Quiet.freshLabel encoder).finished ▸ unfinished
  | bind target => exact (Quiet.bindLabel target encoder).finished ▸ unfinished
  | group => exact (Quiet.freshGroup encoder).finished ▸ unfinished
  | counter => exact (Quiet.freshCounter encoder).finished ▸ unfinished
  | emit emission =>
      rcases emission.places encoder with ⟨fault, middle, stops, keeps⟩ | ⟨_, _, _, _, takes, _⟩
      · rw [Call.perform, leftBy_of_error stops] at unfinished
        exact keeps.finished ▸ unfinished
      · exact takes
  | finish =>
      rw [Call.perform, finished_of_finish] at unfinished
      cases unfinished

omit [CharacterData] in
theorem unfinished_of_finish {program : Program} (returns : finish encoder = .ok program after) :
    encoder.finished = false := by
  rw [finish_eq] at returns
  split at returns
  · cases returns
  · next unfinished => exact (Bool.not_eq_true _).mp unfinished

end Encoder

end RegexMachine
