import Mathlib
import RegexMachine.Proofs.Pattern.Effects
import RegexMachine.Rune.Repertoire

/-! # Operands refer to what was passed

Pools, tables and counts only grow, whether calls return or stop, so what earlier calls were
told still holds. A history therefore accounts for the program under construction: each
instruction was appended by one call and stands for what that call was given, and no group or
counter was handed out that was in use. -/

namespace RegexMachine

namespace Encoder

variable {α : Type} {encoder after : Encoder}

/-! ## Entries -/

namespace Entry

def group? : Entry → Option UInt16
  | ⟨.emit emission, _⟩ => emission.group?
  | ⟨.group, .ok group⟩ => some group
  | _ => none

def address? : Entry → Option Nat
  | ⟨.emit _, .ok address⟩ => some address
  | _ => none

theorem address?_eq_some_iff {entry : Entry} {address : Nat} :
    entry.address? = some address ↔ ∃ emission, entry = ⟨.emit emission, .ok address⟩ := by
  constructor
  · intro found
    unfold address? at found
    split at found
    · next emission address =>
        cases found
        exact ⟨emission, rfl⟩
    · cases found
  · intro placed
    obtain ⟨emission, rfl⟩ := placed
    rfl

/-- The later call has handed out neither a group that the earlier one was given or has handed
out nor a counter that the earlier one has handed out. -/
def Spares (earlier : Entry) : Entry → Prop
  | ⟨.group, .ok group⟩ => earlier.group? ≠ some group
  | ⟨.counter, .ok counter⟩ => earlier ≠ ⟨.counter, .ok counter⟩
  | _ => True

variable [CharacterData]

def Holds (program : Program) : Entry → Prop
  | ⟨.group, .ok group⟩ => group.toNat < program.captureCount
  | ⟨.counter, .ok counter⟩ => counter.toNat < program.counterCount
  | ⟨.emit emission, outcome⟩ =>
      (∀ group, emission.group? = some group → group.toNat < program.captureCount) ∧
        ∀ address, outcome = .ok address → ∀ final : Program, final.Prolongs program →
          ∃ instruction, final.instructions[address]? = some instruction ∧
            emission.Stands final instruction
  | _ => True

namespace Holds

variable {entry : Entry} {program later : Program}

theorem prolong (holds : entry.Holds program) (prolongs : later.Prolongs program) :
    entry.Holds later := by
  obtain ⟨call, outcome⟩ := entry
  cases call with
  | label => trivial
  | bind => trivial
  | group =>
      cases outcome with
      | error => trivial
      | ok group => exact Nat.lt_of_lt_of_le holds prolongs.groups
  | counter =>
      cases outcome with
      | error => trivial
      | ok counter => exact Nat.lt_of_lt_of_le holds prolongs.counters
  | emit emission =>
      exact ⟨fun group named => Nat.lt_of_lt_of_le (holds.1 group named) prolongs.groups,
        fun address returned final further =>
          holds.2 address returned final (further.trans prolongs)⟩
  | finish => trivial

theorem group_lt {group : UInt16} (holds : entry.Holds program)
    (named : entry.group? = some group) : group.toNat < program.captureCount := by
  unfold group? at named
  split at named
  · exact holds.1 group named
  · cases named
    exact holds
  · cases named

end Holds

end Entry

/-! ## Histories -/

section

variable [CharacterData]

structure Accounts (history : List Entry) (program : Program) : Prop where
  addresses : history.filterMap Entry.address? = List.range program.instructions.size
  holds : ∀ entry ∈ history, entry.Holds program
  spares : history.Pairwise Entry.Spares
  positive : 0 < program.captureCount

namespace Accounts

variable {history : List Entry} {entry : Entry} {program later : Program}

theorem new (entry : Direction) (granularity : Granularity) :
    Accounts [] (Encoder.new entry granularity).program :=
  ⟨rfl, List.forall_mem_nil _, .nil, Nat.one_pos⟩

theorem snoc (accounts : Accounts history program) (prolongs : later.Prolongs program)
    (holds : entry.Holds later) (spares : ∀ earlier ∈ history, earlier.Spares entry)
    (addresses : List.range later.instructions.size =
      List.range program.instructions.size ++ entry.address?.toList) :
    Accounts (history ++ [entry]) later where
  addresses := by
    rw [List.filterMap_append, accounts.addresses, addresses]
    cases place : entry.address? <;> simp [place]
  holds other member := by
    rcases List.mem_append.mp member with member | member
    · exact (accounts.holds other member).prolong prolongs
    · rw [List.mem_singleton.mp member]
      exact holds
  spares := by
    refine List.pairwise_append.mpr ⟨accounts.spares, List.pairwise_singleton _ _, ?_⟩
    intro earlier member other last
    rw [List.mem_singleton.mp last]
    exact spares earlier member
  positive := Nat.lt_of_lt_of_le accounts.positive prolongs.groups

theorem quiet (accounts : Accounts history encoder.program) (keeps : after.Keeps encoder)
    (holds : entry.Holds after.program) (spares : ∀ earlier ∈ history, earlier.Spares entry)
    (silent : entry.address? = none) : Accounts (history ++ [entry]) after.program := by
  refine accounts.snoc keeps.prolongs holds spares ?_
  rw [keeps.instructions, silent]
  exact (List.append_nil _).symm

theorem freshGroup (accounts : Accounts history encoder.program) :
    Accounts (history ++ [⟨.group, encoder.outcomeOf Encoder.freshGroup⟩])
      (encoder.leftBy Encoder.freshGroup).program := by
  have keeps := Quiet.freshGroup encoder
  cases returned : Encoder.freshGroup encoder with
  | error fault middle =>
      rw [leftBy_of_error returned] at keeps ⊢
      rw [outcomeOf_of_error returned]
      exact accounts.quiet keeps trivial (fun _ _ => trivial) rfl
  | ok group middle =>
      rw [leftBy_of_ok returned] at keeps ⊢
      rw [outcomeOf_of_ok returned]
      obtain ⟨first, -, rfl⟩ := freshGroup_eq_ok.mp returned
      rw [word16?_eq_some_iff] at first
      refine accounts.quiet keeps (Nat.le_max_right _ _) (fun earlier member used => ?_) rfl
      exact Nat.ne_of_lt ((accounts.holds earlier member).group_lt used) first

theorem freshCounter (accounts : Accounts history encoder.program) :
    Accounts (history ++ [⟨.counter, encoder.outcomeOf Encoder.freshCounter⟩])
      (encoder.leftBy Encoder.freshCounter).program := by
  have keeps := Quiet.freshCounter encoder
  cases returned : Encoder.freshCounter encoder with
  | error fault middle =>
      rw [leftBy_of_error returned] at keeps ⊢
      rw [outcomeOf_of_error returned]
      exact accounts.quiet keeps trivial (fun _ _ => trivial) rfl
  | ok counter middle =>
      rw [leftBy_of_ok returned] at keeps ⊢
      rw [outcomeOf_of_ok returned]
      obtain ⟨first, rfl⟩ := freshCounter_eq_ok.mp returned
      rw [word16?_eq_some_iff] at first
      refine accounts.quiet keeps (Nat.lt_succ_of_le (Nat.le_of_eq first))
        (fun earlier member used => ?_) rfl
      rw [used] at member
      exact Nat.ne_of_lt (accounts.holds _ member) first

theorem emission (accounts : Accounts history encoder.program) (emission : Emission) :
    Accounts (history ++ [⟨.emit emission, encoder.outcomeOf emission.perform⟩])
      (encoder.leftBy emission.perform).program := by
  have named (group) (named : emission.group? = some group) :=
    emission.group_lt named accounts.positive
  rcases emission.places encoder with ⟨fault, middle, stops, keeps⟩ |
    ⟨middle, instruction, returns, keeps, -, stands⟩
  · rw [leftBy_of_error stops] at named ⊢
    rw [outcomeOf_of_error stops]
    exact accounts.quiet keeps ⟨named, nofun⟩ (fun _ _ => trivial) rfl
  · rw [leftBy_of_ok returns] at named ⊢
    rw [outcomeOf_of_ok returns]
    have here : encoder.address = middle.address := congrArg Array.size keeps.instructions.symm
    have prolongs := (Advances.append middle instruction).prolongs
    refine accounts.snoc (prolongs.trans keeps.prolongs) ⟨named, ?_⟩ (fun _ _ => trivial) ?_
    · intro address same final further
      cases same
      rw [here]
      exact ⟨instruction, appended_stays further, stands final further⟩
    · change List.range (middle.program.instructions.push instruction).size =
        List.range encoder.address ++ [encoder.address]
      rw [Array.size_push, List.range_succ, here]
      rfl

/-- Whatever call is made on an encoder that takes instructions afterwards, the history goes on
to account for the program. -/
theorem call (accounts : Accounts history encoder.program) (call : Call)
    (unfinished : (encoder.leftBy call.perform).finished = false) :
    Accounts (history ++ [⟨call, encoder.outcomeOf call.perform⟩])
      (encoder.leftBy call.perform).program := by
  cases call with
  | label =>
      exact accounts.quiet (Quiet.freshLabel encoder) trivial (fun _ _ => trivial) rfl
  | bind target =>
      exact accounts.quiet (Quiet.bindLabel target encoder) trivial (fun _ _ => trivial) rfl
  | group => exact accounts.freshGroup
  | counter => exact accounts.freshCounter
  | emit emission => exact accounts.emission emission
  | finish =>
      rw [Call.perform, finished_of_finish] at unfinished
      cases unfinished

end Accounts

/-- What accounted for the program of the one encoder accounts, together with the calls, for
that of the other, provided that this one still takes instructions. -/
def Carries (calls : List Entry) (encoder after : Encoder) : Prop :=
  after.finished = false → encoder.finished = false ∧
    ∀ history, Accounts history encoder.program → Accounts (history ++ calls) after.program

namespace Carries

variable {early late : List Entry} {middle : Encoder}

theorem refl (encoder : Encoder) : Carries [] encoder encoder := by
  refine fun unfinished => ⟨unfinished, fun history accounts => ?_⟩
  rw [List.append_nil]
  exact accounts

theorem trans (second : Carries late middle after) (first : Carries early encoder middle) :
    Carries (early ++ late) encoder after := by
  intro unfinished
  obtain ⟨between, later⟩ := second unfinished
  obtain ⟨before, earlier⟩ := first between
  refine ⟨before, fun history accounts => ?_⟩
  rw [← List.append_assoc]
  exact later _ (earlier history accounts)

end Carries

/-- The calls that an action makes account for what it does. The induction is on how they were
made. -/
theorem Makes.carries {action : Encode α} {calls : List Entry}
    (makes : Makes action encoder calls) : Carries calls encoder (encoder.leftBy action) := by
  induction makes with
  | call call encoder =>
      exact fun unfinished =>
        ⟨unfinished_of_call call unfinished, fun _ accounts => accounts.call call unfinished⟩
  | get encoder => exact .refl encoder
  | pure value encoder => exact .refl encoder
  | throw fault encoder => exact .refl encoder
  | bindReturning front returns back front_induction back_induction =>
      rw [leftBy_of_ok returns] at front_induction
      rw [leftBy_bind_of_ok returns]
      exact back_induction.trans front_induction
  | bindStopping front stops induction =>
      rw [leftBy_of_error stops] at induction
      rw [leftBy_bind_of_error stops]
      exact induction
  | rescueReturning front returns induction =>
      rw [leftBy_of_ok returns] at induction
      rw [leftBy_tryCatch_of_ok returns]
      exact induction
  | rescueStopping front stops back front_induction back_induction =>
      rw [leftBy_of_error stops] at front_induction
      rw [leftBy_tryCatch_of_error stops]
      exact back_induction.trans front_induction

/-! ## Finishing -/

theorem Accounts.refers {history : List Entry} {program : Program}
    (accounts : Accounts history program) (address : Nat) (instruction : Instruction)
    (found : program.instructions[address]? = some instruction) :
    instruction.Refers program := by
  have inside := (Array.getElem?_eq_some_iff.mp found).1
  have placed : address ∈ history.filterMap Entry.address? := by
    rw [accounts.addresses]
    exact List.mem_range.mpr inside
  obtain ⟨entry, member, place⟩ := List.mem_filterMap.mp placed
  obtain ⟨emission, rfl⟩ := Entry.address?_eq_some_iff.mp place
  obtain ⟨other, same, stands⟩ :=
    (accounts.holds _ member).2 address rfl program (.refl program)
  rw [found] at same
  cases same
  exact stands.refers

/-- Whatever a script does to a new encoder, the program is never turned away for a literal,
a set, a group or the bounds of a loop. A program that is handed over consists of the
instructions that calls of the script have appended, in their order. Each of them stands for
what its call was given, and no call has handed out a counter that had been handed out, or a
group that had been handed out or given to a call. -/
theorem scripted_operands_stand {action : Encode α} (scripted : Scripted action)
    (entry : Direction) (granularity : Granularity) :
    (∃ history, Makes action (.new entry granularity) history) ∧
      (∀ fault after,
        finish ((Encoder.new entry granularity).leftBy action) = .error fault after →
          fault.blamesOperand = false) ∧
      ∀ history program after, Makes action (.new entry granularity) history →
        finish ((Encoder.new entry granularity).leftBy action) = .ok program after →
          history.filterMap Entry.address? = List.range program.instructions.size ∧
          (∀ emission address, ⟨.emit emission, .ok address⟩ ∈ history →
            ∃ instruction, program.instructions[address]? = some instruction ∧
              emission.Stands program instruction) ∧
          history.Pairwise Entry.Spares := by
  have accounts {history : List Entry} (makes : Makes action (.new entry granularity) history)
      (unfinished : ((Encoder.new entry granularity).leftBy action).finished = false) :
      Accounts history ((Encoder.new entry granularity).leftBy action).program :=
    (makes.carries unfinished).2 [] (.new entry granularity)
  have recorded := scripted.recorded (.new entry granularity)
  refine ⟨recorded, ?_, ?_⟩
  · intro fault after stops
    rw [finish_eq] at stops
    split at stops
    · cases stops
      rfl
    · next unfinished =>
        split at stops
        · next reason defect =>
            cases stops
            obtain ⟨history, makes⟩ := recorded
            have refers := (accounts makes ((Bool.not_eq_true _).mp unfinished)).refers
            exact Program.defect?_blames_none refers defect
        · cases stops
  · intro history program after makes returns
    obtain ⟨rfl, -⟩ := sound_of_finish returns
    have accounts := accounts makes (unfinished_of_finish returns)
    refine ⟨accounts.addresses, fun emission address member => ?_, accounts.spares⟩
    exact (accounts.holds _ member).2 address rfl _ (.refl _)

/-- A script that goes on when a group is turned down, and captures a literal by a group that
it is handed afterwards. -/
def recoveringScript : Encode Unit := do
  tryCatch (discard (Emission.beginCapture 0).perform) fun _ => pure ()
  let group ← Call.group.perform
  capture group (Fragment.literal #[0x4B] .caseless).emit .forward
  discard (Emission.plain .accept rfl).perform

end

open scoped Repertoire in
theorem recoveringScript_operands_stand :
    ∃ history program after, Makes recoveringScript (.new .forward .codePoint) history ∧
      finish ((Encoder.new .forward .codePoint).leftBy recoveringScript) = .ok program after ∧
      program.data = #[0x6B] ∧
      history.filterMap Entry.address? = List.range 4 ∧
      (∀ emission address, ⟨.emit emission, .ok address⟩ ∈ history →
        ∃ instruction, program.instructions[address]? = some instruction ∧
          emission.Stands program instruction) ∧
      history.Pairwise Entry.Spares := by
  have scripted : Scripted recoveringScript := by
    have refused := (Scripted.call (.emit (.beginCapture 0))).discard
    have accepts := (Scripted.call (.emit (.plain .accept rfl))).discard
    refine .bind (refused.rescue fun _ => .pure ()) fun _ => .bind (.call .group) fun group => ?_
    exact (Scripted.capture group _ _ (.emit (.literal #[0x4B] .caseless))).bind fun _ => accepts
  obtain ⟨⟨history, makes⟩, -, stand⟩ := scripted_operands_stand scripted .forward .codePoint
  obtain ⟨program, after, returns, data, size⟩ : ∃ program after,
      finish ((Encoder.new .forward .codePoint).leftBy recoveringScript) = .ok program after ∧
        program.data = #[0x6B] ∧ program.instructions.size = 4 :=
    ⟨_, _, by cbv, by rfl, by rfl⟩
  have stands := stand history program after makes returns
  rw [size] at stands
  exact ⟨history, program, after, makes, returns, data, stands⟩

end Encoder

end RegexMachine
