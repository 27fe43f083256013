import RegexMachine.Proofs.Pattern.Emission
import RegexMachine.Proofs.Program.Nesting

/-! # What emitting stops for

Emitting a fragment stops for an operand that is not acceptable and for nothing
else: an encoder that is under way takes every instruction, and a label of the
fragment is bound once, where the fragment says. All instructions emitted by then
find their operands in the pools and tables of the program, labels apart. -/

namespace RegexMachine

def Fault.isOfOperand : Fault → Bool
  | programLimit | resourceLimit | captureGroup | quantifier | characterRange => true
  | _ => false

theorem Instruction.Grounded.prolong {instruction : Instruction} {program later : Program}
    (grounded : instruction.Grounded program) (prolongs : later.Prolongs program) :
    instruction.Grounded later := by
  have groups {group : UInt16} (given : group ≠ 0 ∧ group.toNat < program.captureCount) :
      group ≠ 0 ∧ group.toNat < later.captureCount :=
    given.imp_right fun below => Nat.lt_of_lt_of_le below prolongs.groups
  have counters {counter : UInt16} (below : counter.toNat < program.counterCount) :
      counter.toNat < later.counterCount :=
    Nat.lt_of_lt_of_le below prolongs.counters
  cases instruction with
  | matchString => exact Nat.le_trans grounded prolongs.data_size
  | matchSet => exact Nat.lt_of_lt_of_le grounded prolongs.runeSets_size
  | matchBackref => exact groups grounded
  | beginCapture => exact groups grounded
  | endCapture => exact groups grounded
  | repeatStart => exact counters grounded
  | repeatEnd => exact counters grounded
  | quantify => exact grounded.imp_left counters
  | _ => trivial

namespace Encoder

/-! ## What an action secures -/

variable {α β : Type}

/-- From an encoder as `before` says, the action returns with one as `after`
says, or stops for an operand. -/
def Secures (before : Encoder → Prop) (action : Encode α)
    (after : α → Encoder → Prop) : Prop :=
  ∀ encoder, before encoder →
    match action encoder with
    | .ok result next => after result next
    | .error fault _ => fault.isOfOperand = true

abbrev Acceptable (action : Encode α) : Prop :=
  Secures (fun _ => True) action fun _ _ => True

namespace Secures

variable {before : Encoder → Prop} {first : Encode α} {second : α → Encode β}
  {between after : α → Encoder → Prop} {last : β → Encoder → Prop}

theorem pure {value : α} (enough : ∀ encoder, before encoder → after value encoder) :
    Secures before (Pure.pure value) after :=
  enough

theorem throw {fault : Fault} (operand : fault.isOfOperand = true) :
    Secures before (throw fault : Encode α) after :=
  fun _ _ => operand

theorem bind (front : Secures before first between)
    (back : ∀ result, Secures (between result) (second result) last) :
    Secures before (first >>= second) last := by
  intro encoder given
  have middle := front encoder given
  change match EStateM.bind first second encoder with
    | .ok result next => last result next
    | .error fault _ => fault.isOfOperand = true
  rw [EStateM.bind.eq_def]
  cases returned : first encoder with
  | ok value next =>
      rw [returned] at middle
      exact back value next middle
  | error fault next =>
      rw [returned] at middle
      exact middle

theorem discard {after : Encoder → Prop} (secures : Secures before first fun _ => after) :
    Secures before (discard first) fun _ => after := by
  rw [discard_eq_bind]
  exact secures.bind fun _ => .pure fun _ given => given

theorem given {fact : Prop} (secures : fact → Secures before first after) :
    Secures (fun encoder => fact ∧ before encoder) first after :=
  fun encoder given => secures given.1 encoder given.2

theorem imp {earlier : Encoder → Prop} (secures : Secures before first between)
    (enters : ∀ encoder, earlier encoder → before encoder)
    (leaves : ∀ result encoder, between result encoder → after result encoder) :
    Secures earlier first after := by
  intro encoder given
  have ends := secures encoder (enters encoder given)
  cases returned : first encoder with
  | ok value next =>
      rw [returned] at ends
      exact leaves value next ends
  | error fault next =>
      rw [returned] at ends
      exact ends

end Secures

namespace Acceptable

variable {first : Encode α} {second : α → Encode β} {fault : Fault}

theorem secures (acceptable : Acceptable first) {before : Encoder → Prop}
    {after : α → Encoder → Prop}
    (returns : ∀ encoder result next, before encoder → first encoder = .ok result next →
      after result next) :
    Secures before first after := by
  intro encoder given
  have ends := acceptable encoder trivial
  cases returned : first encoder with
  | ok value next => exact returns encoder value next given returned
  | error fault next =>
      rw [returned] at ends
      exact ends

theorem bind (front : Acceptable first) (back : ∀ result, Acceptable (second result)) :
    Acceptable (first >>= second) :=
  Secures.bind front back

theorem pure (value : α) : Acceptable (Pure.pure value : Encode α) := fun _ _ => trivial

theorem throw (operand : fault.isOfOperand = true) : Acceptable (throw fault : Encode α) :=
  fun _ _ => operand

theorem get : Acceptable (get : Encode Encoder) := fun _ _ => trivial

theorem change (next : Program → Program) : Acceptable (change next) := fun _ _ => trivial

theorem changeGet (read : Program → α) (next : Program → Program) :
    Acceptable (changeGet read next) := fun _ _ => trivial

theorem orStop (operand : Option α) (fits : fault.isOfOperand = true) :
    Acceptable (orStop operand fault) := by
  cases operand with
  | none => exact .throw fits
  | some value => exact pure value

theorem freshLabel : Acceptable freshLabel := by
  refine (changeGet _ _).bind fun id => ?_
  split
  · exact pure _
  · exact .throw rfl

theorem reserveGroup (group : UInt16) : Acceptable (reserveGroup group) := by
  rw [Encoder.reserveGroup]
  split
  · exact (throw rfl).bind fun _ => change _
  · exact change _

theorem freshCounter : Acceptable freshCounter :=
  get.bind fun _ => (orStop _ rfl).bind fun _ => (change _).bind fun _ => pure _

theorem addLiteral (literal : Octets) : Acceptable (addLiteral literal) :=
  (changeGet _ _).bind fun _ => (orStop _ rfl).bind fun _ => (orStop _ rfl).bind fun _ =>
    pure _

theorem addRuneSet (set : RuneSet) : Acceptable (addRuneSet set) :=
  (changeGet _ _).bind fun _ => orStop _ rfl

end Acceptable

/-! ## Encoders under way -/

/-- The encoder takes instructions, the pending labels are still to be bound, at
least `floor` counters have been handed out, and the instructions so far are
grounded. -/
structure Ready (encoder : Encoder) (pending : List Label) (floor : Nat) : Prop where
  unfinished : encoder.finished = false
  distinct : pending.Nodup
  unbound : ∀ label ∈ pending, encoder.program.targets[label.id.toNat]? = some none
  counters : floor ≤ encoder.program.counterCount
  grounded : ∀ (address : Nat) instruction,
    encoder.program.instructions[address]? = some instruction →
      instruction.Grounded encoder.program

variable {encoder after : Encoder} {pending : List Label} {floor : Nat} {label : Label}
  {instruction : Instruction}

namespace Ready

theorem new (entry : Direction) (granularity : Granularity) :
    (Encoder.new entry granularity).Ready [] 0 := by
  refine ⟨rfl, List.nodup_nil, nofun, Nat.zero_le _, fun address instruction found => ?_⟩
  simp [Encoder.new] at found

theorem perm {others : List Label} (ready : encoder.Ready pending floor)
    (same : pending.Perm others) : encoder.Ready others floor :=
  { ready with
    distinct := same.nodup_iff.mp ready.distinct
    unbound := fun label member => ready.unbound label (same.mem_iff.mpr member) }

theorem lower {low : Nat} (ready : encoder.Ready pending floor) (ordered : low ≤ floor) :
    encoder.Ready pending low :=
  { ready with counters := Nat.le_trans ordered ready.counters }

theorem grow (ready : encoder.Ready pending floor)
    (prolongs : after.program.Prolongs encoder.program)
    (finished : after.finished = encoder.finished)
    (targets : after.program.targets = encoder.program.targets)
    (instructions : after.program.instructions = encoder.program.instructions) :
    after.Ready pending floor where
  unfinished := finished.trans ready.unfinished
  distinct := ready.distinct
  unbound label member := by
    rw [targets]
    exact ready.unbound label member
  counters := Nat.le_trans ready.counters prolongs.counters
  grounded address instruction found := by
    rw [instructions] at found
    exact (ready.grounded address instruction found).prolong prolongs

theorem appended (ready : encoder.Ready pending floor)
    (grounded : instruction.Grounded encoder.program) :
    (encoder.appended instruction).Ready pending floor := by
  have prolongs := (Advances.append encoder instruction).prolongs
  refine { ready with grounded := fun address other found => ?_ }
  refine Instruction.Grounded.prolong ?_ prolongs
  simp only [Encoder.appended, Array.getElem?_push] at found
  split at found
  · cases found
    exact grounded
  · exact ready.grounded address other found

theorem freshLabel (ready : encoder.Ready pending floor)
    (returns : Encoder.freshLabel encoder = .ok label after) :
    after.Ready (label :: pending) floor := by
  obtain ⟨fits, rfl, rfl⟩ := freshLabel_eq_ok.mp returns
  have fresh : encoder.program.targets.size.toUInt32.toNat = encoder.program.targets.size :=
    Nat.mod_eq_of_lt (by omega)
  have older (label) (member : label ∈ pending) :
      label.id.toNat < encoder.program.targets.size :=
    (Array.getElem?_eq_some_iff.mp (ready.unbound label member)).1
  refine ⟨ready.unfinished, List.nodup_cons.mpr ⟨?_, ready.distinct⟩, ?_, ready.counters, ?_⟩
  · intro member
    exact Nat.ne_of_lt (older _ member) fresh
  · intro label member
    dsimp only
    rcases List.mem_cons.mp member with rfl | member
    · rw [fresh]
      exact Array.getElem?_push_size
    · rw [Array.getElem?_push_lt (older label member),
        ← Array.getElem?_eq_getElem (older label member)]
      exact ready.unbound label member
  · intro address instruction found
    exact (ready.grounded address instruction found).prolong (.label encoder.program)

theorem bindLabel (ready : encoder.Ready (label :: pending) floor) :
    ∃ after, Encoder.bindLabel label encoder = .ok () after ∧ after.Ready pending floor := by
  have unbound := ready.unbound label List.mem_cons_self
  obtain ⟨absent, distinct⟩ := List.nodup_cons.mp ready.distinct
  refine ⟨_, bindLabel_eq_ok.mpr ⟨unbound, rfl⟩, ready.unfinished, distinct, ?_,
    ready.counters, ?_⟩
  · intro other member
    have different : label.id.toNat ≠ other.id.toNat := by
      intro same
      have same : label = other := congrArg Label.mk (UInt32.toNat_inj.mp same)
      rw [same] at absent
      exact absent member
    rw [Array.getElem?_setIfInBounds_ne different]
    exact ready.unbound other (List.mem_cons_of_mem label member)
  · intro address instruction found
    exact (ready.grounded address instruction found).prolong (.binding unbound _)

end Ready

/-! ## The operations of an encoder under way -/

variable {labels : List Label} {group : UInt16}

namespace Secures

theorem append {before : Encoder → Prop} {instruction : Instruction}
    (ready : ∀ encoder, before encoder →
      encoder.Ready pending floor ∧ instruction.Grounded encoder.program) :
    Secures before (Encoder.append instruction) fun _ => (·.Ready pending floor) := by
  intro encoder given
  obtain ⟨ready, grounded⟩ := ready encoder given
  rw [append_eq_ok.mpr ⟨ready.unfinished, rfl, rfl⟩]
  exact ready.appended grounded

/-- An instruction without operands, labels apart, can always be appended. -/
theorem appendPlain (instruction : Instruction)
    (grounded : ∀ program, instruction.Grounded program) :
    Secures (·.Ready pending floor) (Functor.discard (Encoder.append instruction))
      fun _ => (·.Ready pending floor) :=
  .discard (append fun encoder ready => ⟨ready, grounded encoder.program⟩)

theorem freshLabel : Secures (·.Ready pending floor) Encoder.freshLabel
    fun label encoder => encoder.Ready (label :: pending) floor :=
  Acceptable.freshLabel.secures fun _ _ _ ready returns => ready.freshLabel returns

theorem bindLabel : Secures (·.Ready (label :: pending) floor) (Encoder.bindLabel label)
    fun _ => (·.Ready pending floor) := by
  intro encoder ready
  obtain ⟨after, returns, ready⟩ := ready.bindLabel
  rw [returns]
  exact ready

theorem freshCounter : Secures (·.Ready pending floor) Encoder.freshCounter
    fun counter encoder => floor ≤ counter.toNat ∧
      encoder.Ready pending (counter.toNat + 1) := by
  refine Acceptable.freshCounter.secures fun encoder counter after ready returns => ?_
  have prolongs := (Advances.freshCounter returns).prolongs
  obtain ⟨number, rfl⟩ := freshCounter_eq_ok.mp returns
  rw [word16?_eq_some_iff] at number
  have grown := ready.grow prolongs rfl rfl rfl
  refine ⟨number ▸ ready.counters, { grown with counters := ?_ }⟩
  exact Nat.succ_le_succ (Nat.le_of_eq number)

theorem reserveGroup : Secures (·.Ready pending floor) (Encoder.reserveGroup group)
    fun _ encoder => encoder.Ready pending floor ∧
      group ≠ 0 ∧ group.toNat < encoder.program.captureCount := by
  refine (Acceptable.reserveGroup group).secures fun encoder _ after ready returns => ?_
  have prolongs := (Advances.reserveGroup returns).prolongs
  obtain ⟨named, rfl⟩ := reserveGroup_eq_ok.mp returns
  exact ⟨ready.grow prolongs rfl rfl rfl, named, Nat.le_max_right _ _⟩

theorem appendCapture {instruction : Instruction}
    (grounded : ∀ program : Program, group ≠ 0 → group.toNat < program.captureCount →
      instruction.Grounded program) :
    Secures (·.Ready pending floor)
      (Functor.discard (Encoder.reserveGroup group >>= fun _ => Encoder.append instruction))
      fun _ => (·.Ready pending floor) :=
  .discard (reserveGroup.bind fun _ => append fun encoder given =>
    ⟨given.1, grounded encoder.program given.2.1 given.2.2⟩)

theorem quantify (greed : Greed) {min max : UInt32} {counter : UInt16} (exit : Label) :
    Secures (·.Ready pending (counter.toNat + 1))
      (Functor.discard (Encoder.quantify greed min max counter exit))
      fun _ => (·.Ready pending (counter.toNat + 1)) := by
  apply discard
  rw [Encoder.quantify]
  split
  · have stops : Secures (·.Ready pending (counter.toNat + 1))
        (MonadExcept.throw Fault.quantifier : Encode Unit) fun _ _ => False := throw rfl
    exact stops.bind fun _ => append fun _ absurd => absurd.elim
  · next ordered =>
      exact append fun encoder ready => ⟨ready, ready.counters, UInt32.not_lt.mp ordered⟩

theorem addLiteral (literal : Octets) :
    Secures (·.Ready pending floor) (Encoder.addLiteral literal)
      fun (offset, length) encoder => encoder.Ready pending floor ∧
        offset.toNat + length.toNat ≤ encoder.program.data.size := by
  refine (Acceptable.addLiteral literal).secures fun encoder place after ready returns => ?_
  obtain ⟨offset, length⟩ := place
  have prolongs := (Advances.addLiteral returns).prolongs
  obtain ⟨first, size, rfl⟩ := addLiteral_eq_ok.mp returns
  rw [word32?_eq_some_iff] at first
  rw [word16?_eq_some_iff] at size
  refine ⟨ready.grow prolongs rfl rfl rfl, ?_⟩
  rw [first, size]
  exact Nat.le_of_eq Array.size_append.symm

theorem addRuneSet (set : RuneSet) :
    Secures (·.Ready pending floor) (Encoder.addRuneSet set)
      fun index encoder => encoder.Ready pending floor ∧
        index.toNat < encoder.program.runeSets.size := by
  refine (Acceptable.addRuneSet set).secures fun encoder index after ready returns => ?_
  have prolongs := (Advances.addRuneSet returns).prolongs
  obtain ⟨place, rfl⟩ := addRuneSet_eq_ok.mp returns
  rw [word16?_eq_some_iff] at place
  refine ⟨ready.grow prolongs rfl rfl rfl, ?_⟩
  rw [place, Array.size_push]
  exact Nat.lt_succ_self _

end Secures

end Encoder

/-! ## Fragments -/

namespace Fragment

open Encoder

variable [CharacterData]

def Secure (fragment : Fragment) : Prop :=
  ∀ direction pending floor, Secures (·.Ready pending floor) (fragment.emit direction)
    fun _ => (·.Ready pending floor)

variable {pending : List Label} {floor : Nat} {direction : Direction}

theorem secure_literal (text : Octets) (flags : MatchFlags) : (literal text flags).Secure :=
  fun _ _ _ => .discard ((Secures.addLiteral _).bind fun _ => .append fun _ given => given)

omit [CharacterData] in
private theorem error_of_bind {α β : Type} {first : Except Fault α} {second : α → Except Fault β}
    {fault : Fault} (stops : first >>= second = .error fault) :
    first = .error fault ∨ ∃ value, second value = .error fault := by
  cases first with
  | error other =>
      left
      cases stops
      rfl
  | ok value => exact .inr ⟨value, stops⟩

theorem push_error {set : RuneSet} {range : Interval} {caseless : Bool} {fault : Fault}
    (stops : (if caseless then set.pushFolded range.first range.last Rune.caseFold
      else set.push range.first range.last) = .error fault) : fault.isOfOperand = true := by
  have plain (stops : set.push range.first range.last = .error fault) :
      fault.isOfOperand = true := by
    rw [RuneSet.push] at stops
    split at stops
    · cases stops
      rfl
    · cases stops
  split at stops
  · rcases error_of_bind stops with pushed | ⟨_, folded⟩
    · exact plain pushed
    · cases folded
  · exact plain stops

theorem gatherRanges_error {ranges : List Interval} {caseless : Bool} {fault : Fault}
    (stops : gatherRanges ranges caseless = .error fault) : fault.isOfOperand = true := by
  rcases error_of_bind stops with gathered | ⟨_, normal⟩
  · clear stops
    generalize RuneSet.empty = set at gathered
    induction ranges generalizing set with
    | nil => cases gathered
    | cons range rest induction =>
        rw [List.foldlM_cons] at gathered
        rcases error_of_bind gathered with here | ⟨next, later⟩
        · exact push_error here
        · exact induction next later
  · cases normal

theorem secure_ofSet (ranges : List Interval) (flags : MatchFlags) (negated : Bool) :
    (ofSet ranges flags negated).Secure := by
  intro direction pending floor
  apply Secures.discard
  rw [matchSet]
  cases gathered : gatherRanges ranges (flags.has .caseless) with
  | error fault =>
      exact .throw (gatherRanges_error gathered)
  | ok set =>
      exact (Secures.addRuneSet set).bind fun _ => .append fun _ given => given

theorem secure_skip (count : Nat) : (skip count).Secure := by
  intro direction pending floor
  apply Secures.discard
  rw [advance]
  have fits : Secures (·.Ready pending floor) (orStop (word32? count) .programLimit)
      fun _ => (·.Ready pending floor) := by
    refine (Acceptable.orStop _ rfl).secures fun _ _ _ ready returns => ?_
    rw [← (orStop_eq_ok.mp returns).2]
    exact ready
  exact fits.bind fun _ => .append fun _ ready => ⟨ready, trivial⟩

theorem secure_forward {parts : List Fragment} (each : ∀ part ∈ parts, part.Secure) :
    Secures (·.Ready pending floor) ((emitters parts).forM (· .forward))
      fun _ => (·.Ready pending floor) := by
  induction parts with
  | nil => exact .pure fun _ ready => ready
  | cons part rest induction =>
      obtain ⟨here, others⟩ := List.forall_mem_cons.mp each
      exact (here .forward pending floor).bind fun _ => induction others

theorem secure_reverse {parts : List Fragment} (each : ∀ part ∈ parts, part.Secure) :
    Secures (·.Ready pending floor) ((emitters parts).reverse.forM (· .reverse))
      fun _ => (·.Ready pending floor) := by
  induction parts with
  | nil => exact .pure fun _ ready => ready
  | cons part rest induction =>
      obtain ⟨here, others⟩ := List.forall_mem_cons.mp each
      rw [emitters, List.reverse_cons, forM_concat]
      exact (induction others).bind fun _ => here .reverse pending floor

omit [CharacterData] in
theorem secure_freshLabels {α : Type} (items : List α) :
    Secures (·.Ready pending floor) (items.mapM fun _ => Encoder.freshLabel)
      fun labels encoder => labels.length = items.length ∧
        encoder.Ready (labels ++ pending) floor := by
  induction items generalizing pending with
  | nil =>
      rw [List.mapM_nil]
      exact .pure fun _ ready => ⟨rfl, ready⟩
  | cons item rest induction =>
      rw [List.mapM_cons]
      refine Secures.freshLabel.bind fun label => induction.bind fun labels => .pure ?_
      intro encoder given
      obtain ⟨length, ready⟩ := given
      exact ⟨congrArg (· + 1) length, ready.perm List.perm_middle⟩

omit [CharacterData] in
theorem secure_dispatch (entries : List Label) :
    Secures (·.Ready pending floor) (dispatch entries) fun _ => (·.Ready pending floor) := by
  induction entries with
  | nil => exact .pure fun _ ready => ready
  | cons entry rest induction =>
      cases rest with
      | nil => exact .appendPlain (.jump entry) fun _ => trivial
      | cons next rest =>
          exact (Secures.appendPlain (.branch entry) fun _ => trivial).bind fun _ => induction

theorem secure_alternatives {exit : Label} {entries : List Label}
    {alternatives : List Fragment} (same : entries.length = alternatives.length)
    (each : ∀ alternative ∈ alternatives, alternative.Secure) (direction : Direction) :
    Secures (·.Ready (entries ++ pending) floor)
      (emitAlternatives exit direction (entries.zip (emitters alternatives)))
      fun _ => (·.Ready pending floor) := by
  induction alternatives generalizing entries with
  | nil =>
      obtain rfl : entries = [] := List.eq_nil_of_length_eq_zero same
      exact .pure fun _ ready => ready
  | cons alternative rest induction =>
      obtain ⟨here, others⟩ := List.forall_mem_cons.mp each
      cases entries with
      | nil => cases same
      | cons target entries =>
          have same : entries.length = rest.length := Nat.succ.inj same
          cases rest with
          | nil =>
              obtain rfl : entries = [] := List.eq_nil_of_length_eq_zero same
              exact Secures.bindLabel.bind fun _ => here direction pending floor
          | cons next rest =>
              cases entries with
              | nil => cases same
              | cons second entries =>
                  exact Secures.bindLabel.bind fun _ => (here direction _ floor).bind fun _ =>
                    (Secures.appendPlain (.jump exit) fun _ => trivial).bind fun _ =>
                      induction same others

theorem secure_alternation {alternatives : List Fragment}
    (each : ∀ alternative ∈ alternatives, alternative.Secure) :
    (alternation alternatives).Secure := by
  intro direction pending floor
  cases alternatives with
  | nil => exact .appendPlain .fail fun _ => trivial
  | cons alternative rest =>
      have lengths := length_emitters (alternative :: rest)
      refine (secure_freshLabels (emitters (alternative :: rest))).bind fun entries =>
        .given fun length => Secures.freshLabel.bind fun exit => ?_
      have offers : Secures (·.Ready (exit :: (entries ++ pending)) floor)
          (emitAlternatives exit direction
            (entries.zip (emitters (alternative :: rest))))
          fun _ => (·.Ready (exit :: pending) floor) :=
        (secure_alternatives (length.trans lengths) each direction).imp
          (fun _ ready => ready.perm List.perm_middle.symm) fun _ _ ready => ready
      exact (secure_dispatch entries).bind fun _ => offers.bind fun _ => Secures.bindLabel

theorem secure_repetition (greed : Greed) (min max : UInt32) {body : Fragment}
    (secure : body.Secure) : (repetition greed min max body).Secure := by
  intro direction pending floor
  refine Secures.freshCounter.bind fun counter => .given fun above => ?_
  refine Secures.freshLabel.bind fun head => Secures.freshLabel.bind fun exit => ?_
  have counts (instruction : Instruction) (labels : List Label)
      (grounded : ∀ program : Program, counter.toNat < program.counterCount →
        instruction.Grounded program) :
      Secures (·.Ready labels (counter.toNat + 1)) (discard (Encoder.append instruction))
        fun _ => (·.Ready labels (counter.toNat + 1)) :=
    .discard (.append fun encoder ready => ⟨ready, grounded encoder.program ready.counters⟩)
  have swapped : Secures (·.Ready (exit :: head :: pending) (counter.toNat + 1))
      (Encoder.bindLabel head) fun _ => (·.Ready (exit :: pending) (counter.toNat + 1)) :=
    Secures.bindLabel.imp (fun _ ready => ready.perm (.swap _ _ _)) fun _ _ ready => ready
  exact (counts (.repeatStart counter) _ fun _ inside => inside).bind fun _ =>
    swapped.bind fun _ => (Secures.quantify greed exit).bind fun _ =>
      (secure direction _ _).bind fun _ =>
        (counts (.repeatEnd counter head) _ fun _ inside => inside).bind fun _ =>
          Secures.bindLabel.imp (fun _ ready => ready) fun _ _ ready =>
            ready.lower (Nat.le_succ_of_le above)

theorem secure_capture (group : UInt16) {body : Fragment} (secure : body.Secure) :
    (capture group body).Secure := by
  intro direction pending floor
  have begins : Secures (·.Ready pending floor) (discard (Encoder.beginCapture group))
      fun _ => (·.Ready pending floor) :=
    .appendCapture fun _ named inside => ⟨named, inside⟩
  have ends : Secures (·.Ready pending floor) (discard (Encoder.endCapture group))
      fun _ => (·.Ready pending floor) :=
    .appendCapture fun _ named inside => ⟨named, inside⟩
  cases direction with
  | forward => exact begins.bind fun _ => (secure .forward _ _).bind fun _ => ends
  | reverse => exact ends.bind fun _ => (secure .reverse _ _).bind fun _ => begins

theorem secure_lookaround (sight : Direction) (negated : Bool) {body : Fragment}
    (secure : body.Secure) : (lookaround sight negated body).Secure := by
  intro direction pending floor
  have plain (instruction : Instruction) (labels : List Label)
      (grounded : ∀ program, instruction.Grounded program) :
      Secures (·.Ready labels floor) (discard (Encoder.append instruction))
        fun _ => (·.Ready labels floor) :=
    .appendPlain instruction grounded
  cases negated with
  | true =>
      exact Secures.freshLabel.bind fun exit =>
        (plain (.save exit) _ fun _ => trivial).bind fun _ => (secure sight _ _).bind fun _ =>
          (plain (.clearThrough exit false) _ fun _ => trivial).bind fun _ =>
            (plain .fail _ fun _ => trivial).bind fun _ => Secures.bindLabel
  | false =>
      refine Secures.freshLabel.bind fun failure => Secures.freshLabel.bind fun exit => ?_
      have swapped : Secures (·.Ready (exit :: failure :: pending) floor)
          (Encoder.bindLabel failure) fun _ => (·.Ready (exit :: pending) floor) :=
        Secures.bindLabel.imp (fun _ ready => ready.perm (.swap _ _ _)) fun _ _ ready => ready
      exact (plain (.save failure) _ fun _ => trivial).bind fun _ =>
        (secure sight _ _).bind fun _ =>
          (plain (.clearThrough failure true) _ fun _ => trivial).bind fun _ =>
            (plain (.jump exit) _ fun _ => trivial).bind fun _ => swapped.bind fun _ =>
              (plain .fail _ fun _ => trivial).bind fun _ => Secures.bindLabel

theorem secure (fragment : Fragment) : fragment.Secure := by
  induction fragment using Fragment.induct with
  | literal text flags => exact secure_literal text flags
  | any flags => exact fun _ _ _ => .appendPlain _ fun _ => trivial
  | ofClass runeClass flags negated => exact fun _ _ _ => .appendPlain _ fun _ => trivial
  | ofSet ranges flags negated => exact secure_ofSet ranges flags negated
  | backref group flags =>
      exact fun _ _ _ => .appendCapture fun _ named inside => ⟨named, inside⟩
  | skip count => exact secure_skip count
  | anchored anchor => exact fun _ _ _ => .appendPlain _ fun _ => trivial
  | sequence parts induction =>
      intro direction pending floor
      cases direction with
      | forward => exact secure_forward induction
      | reverse => exact secure_reverse induction
  | alternation alternatives induction => exact secure_alternation induction
  | repetition greed min max body induction => exact secure_repetition greed min max induction
  | capture group body induction => exact secure_capture group induction
  | lookaround sight negated body induction => exact secure_lookaround sight negated induction

end Fragment

end RegexMachine
