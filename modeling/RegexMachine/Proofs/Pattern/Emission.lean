import RegexMachine.Proofs.Pattern.Placement

/-! # Emitting puts fragments in place

An encoder only ever adds to its program and binds labels that were not bound
before, so what has been emitted once stays in place whatever is emitted after
it. -/

namespace RegexMachine

/-- The later program holds whatever the earlier one does, at the same place. -/
structure Program.Prolongs (later earlier : Program) : Prop where
  instructions : ∀ (address : Nat) instruction,
    earlier.instructions[address]? = some instruction →
      later.instructions[address]? = some instruction
  targets : ∀ label address, earlier.target? label = some address →
    later.target? label = some address
  data : ∀ (index : Nat) octet, earlier.data[index]? = some octet →
    later.data[index]? = some octet
  runeSets : ∀ (index : Nat) set, earlier.runeSets[index]? = some set →
    later.runeSets[index]? = some set
  groups : earlier.captureCount ≤ later.captureCount
  counters : earlier.counterCount ≤ later.counterCount
  granularity : later.granularity = earlier.granularity
  entry : later.entry = earlier.entry

namespace Program.Prolongs

variable {last later program : Program}

theorem refl (program : Program) : program.Prolongs program :=
  ⟨fun _ _ found => found, fun _ _ found => found, fun _ _ found => found,
    fun _ _ found => found, Nat.le_refl _, Nat.le_refl _, rfl, rfl⟩

theorem trans (second : last.Prolongs later) (first : later.Prolongs program) :
    last.Prolongs program where
  instructions address instruction found :=
    second.instructions _ _ (first.instructions address instruction found)
  targets label address found := second.targets _ _ (first.targets label address found)
  data index octet found := second.data _ _ (first.data index octet found)
  runeSets index set found := second.runeSets _ _ (first.runeSets index set found)
  groups := Nat.le_trans first.groups second.groups
  counters := Nat.le_trans first.counters second.counters
  granularity := second.granularity.trans first.granularity
  entry := second.entry.trans first.entry

private theorem size_le_of_getElem? {α : Type} {row later : Array α}
    (stays : ∀ (index : Nat) value, row[index]? = some value → later[index]? = some value) :
    row.size ≤ later.size := by
  rcases Nat.eq_zero_or_pos row.size with empty | nonempty
  · omega
  · have final := stays (row.size - 1) _ (Array.getElem?_eq_getElem (by omega))
    rcases Array.getElem?_eq_some_iff.mp final with ⟨inside, -⟩
    omega

theorem data_size (prolongs : later.Prolongs program) :
    program.data.size ≤ later.data.size :=
  size_le_of_getElem? prolongs.data

theorem runeSets_size (prolongs : later.Prolongs program) :
    program.runeSets.size ≤ later.runeSets.size :=
  size_le_of_getElem? prolongs.runeSets

private theorem getElem?_push {α : Type} {row : Array α} {index : Nat} {value : α}
    (found : row[index]? = some value) (more : α) : (row.push more)[index]? = some value := by
  rcases Array.getElem?_eq_some_iff.mp found with ⟨inside, -⟩
  rw [Array.getElem?_push_lt inside, ← found, Array.getElem?_eq_getElem inside]

theorem instruction (program : Program) (instruction : Instruction) :
    { program with
      instructions := program.instructions.push instruction }.Prolongs program :=
  { refl program with instructions := fun _ _ found => getElem?_push found _ }

theorem label (program : Program) :
    { program with targets := program.targets.push none }.Prolongs program := by
  refine { refl program with targets := fun label address found => ?_ }
  rw [Program.target?, Option.join_eq_some_iff] at found ⊢
  exact getElem?_push found _

theorem binding {label : Label} (unbound : program.targets[label.id.toNat]? = some none)
    (address : Nat) :
    { program with
      targets := program.targets.setIfInBounds label.id.toNat (some address) }.Prolongs
        program := by
  refine { refl program with targets := fun other bound found => ?_ }
  rw [Program.target?, Option.join_eq_some_iff] at found ⊢
  have different : label.id.toNat ≠ other.id.toNat := by
    intro same
    rw [same, found] at unbound
    cases unbound
  rw [Array.getElem?_setIfInBounds_ne different]
  exact found

theorem counter (program : Program) :
    { program with counterCount := program.counterCount + 1 }.Prolongs program :=
  { refl program with counters := Nat.le_succ _ }

theorem group (program : Program) (count : Nat) :
    { program with captureCount := max program.captureCount count }.Prolongs program :=
  { refl program with groups := Nat.le_max_left _ _ }

theorem literal (program : Program) (literal : Octets) :
    { program with data := program.data ++ literal }.Prolongs program := by
  refine { refl program with data := fun index octet found => ?_ }
  rcases Array.getElem?_eq_some_iff.mp found with ⟨inside, -⟩
  rw [← found]
  exact Array.getElem?_append_left inside

theorem runeSet (program : Program) (set : RuneSet) :
    { program with runeSets := program.runeSets.push set }.Prolongs program :=
  { refl program with runeSets := fun _ _ found => getElem?_push found _ }

end Program.Prolongs

namespace Encoder

variable {encoder middle after : Encoder} {done : Unit}

def address (encoder : Encoder) : Nat := encoder.program.instructions.size

structure Advances (after encoder : Encoder) (count : Nat) : Prop where
  prolongs : after.program.Prolongs encoder.program
  address : after.address = encoder.address + count

namespace Advances

theorem refl (encoder : Encoder) : encoder.Advances encoder 0 :=
  ⟨.refl encoder.program, rfl⟩

theorem append (encoder : Encoder) (instruction : Instruction) :
    (encoder.appended instruction).Advances encoder 1 :=
  ⟨.instruction encoder.program instruction, Array.size_push _⟩

theorem freshLabel {label : Label} (returns : Encoder.freshLabel encoder = .ok label after) :
    after.Advances encoder 0 := by
  rcases freshLabel_eq_ok.mp returns with ⟨-, -, rfl⟩
  exact ⟨.label encoder.program, rfl⟩

theorem bindLabel {label : Label} (returns : Encoder.bindLabel label encoder = .ok done after) :
    after.Advances encoder 0 := by
  rcases bindLabel_eq_ok.mp returns with ⟨unbound, rfl⟩
  exact ⟨.binding unbound _, rfl⟩

theorem reserveGroup {group : UInt16}
    (returns : Encoder.reserveGroup group encoder = .ok done after) :
    after.Advances encoder 0 := by
  rcases reserveGroup_eq_ok.mp returns with ⟨-, rfl⟩
  exact ⟨.group encoder.program _, rfl⟩

theorem freshCounter {counter : UInt16}
    (returns : Encoder.freshCounter encoder = .ok counter after) :
    after.Advances encoder 0 := by
  rcases freshCounter_eq_ok.mp returns with ⟨-, rfl⟩
  exact ⟨.counter encoder.program, rfl⟩

theorem addLiteral {literal : Octets} {offset : UInt32} {length : UInt16}
    (returns : Encoder.addLiteral literal encoder = .ok (offset, length) after) :
    after.Advances encoder 0 := by
  rcases addLiteral_eq_ok.mp returns with ⟨-, -, rfl⟩
  exact ⟨.literal encoder.program literal, rfl⟩

theorem addRuneSet {set : RuneSet} {index : UInt16}
    (returns : Encoder.addRuneSet set encoder = .ok index after) :
    after.Advances encoder 0 := by
  rcases addRuneSet_eq_ok.mp returns with ⟨-, rfl⟩
  exact ⟨.runeSet encoder.program set, rfl⟩

end Advances

/-! ## What stays in place -/

variable {final : Program}

theorem appended_stays {instruction : Instruction}
    (prolongs : final.Prolongs (encoder.appended instruction).program) :
    final.instructions[encoder.address]? = some instruction :=
  prolongs.instructions _ _ Array.getElem?_push_size

theorem bound_stays {label : Label}
    (returns : bindLabel label encoder = .ok done after)
    (prolongs : final.Prolongs after.program) :
    final.target? label = some encoder.address := by
  rcases bindLabel_eq_ok.mp returns with ⟨unbound, rfl⟩
  rcases Array.getElem?_eq_some_iff.mp unbound with ⟨inside, -⟩
  apply prolongs.targets
  simp [Program.target?, inside, address]

theorem literal_stays {literal : Octets} {offset : UInt32} {length : UInt16}
    (returns : addLiteral literal encoder = .ok (offset, length) after)
    (prolongs : final.Prolongs after.program) :
    ∃ slice, final.literal? offset length = some slice ∧ slice.toOctets = literal := by
  rcases addLiteral_eq_ok.mp returns with ⟨first, size, rfl⟩
  rw [word32?_eq_some_iff] at first
  rw [word16?_eq_some_iff] at size
  have stays : ∀ index < literal.size,
      final.data[offset.toNat + index]? = literal[index]? := by
    intro index below
    rw [Array.getElem?_eq_getElem below]
    apply prolongs.data
    rw [first, Array.getElem?_append_right (Nat.le_add_right _ _),
      Nat.add_sub_cancel_left, Array.getElem?_eq_getElem below]
  have fits : offset.toNat + length.toNat ≤ final.data.size := by
    have grown := prolongs.data_size
    rw [Array.size_append] at grown
    rw [first, size]
    exact grown
  refine ⟨_, if_pos fits, ?_⟩
  apply Array.ext_getElem?
  intro index
  simp only [Slice.toOctets, Array.getElem?_extract]
  rw [Nat.min_eq_left fits, Nat.add_sub_cancel_left, size]
  split
  · next below => exact stays index below
  · next beyond => exact (Array.getElem?_eq_none (Nat.le_of_not_lt beyond)).symm

theorem runeSet_stays {set : RuneSet} {index : UInt16}
    (returns : addRuneSet set encoder = .ok index after)
    (prolongs : final.Prolongs after.program) :
    final.runeSets[index.toNat]? = some set := by
  rcases addRuneSet_eq_ok.mp returns with ⟨place, rfl⟩
  rw [word16?_eq_some_iff] at place
  apply prolongs.runeSets
  rw [place]
  exact Array.getElem?_push_size

end Encoder

/-! ## Fragments -/

namespace Fragment

open Encoder

/-- What the action appends is placed in the program, whatever the encoder does
after it. -/
def Lays (action : Encode Unit) (placed : Program → (first last floor : Nat) → Prop) :
    Prop :=
  ∀ encoder after, action encoder = .ok () after →
    after.program.Prolongs encoder.program ∧
      ∀ final : Program, final.Prolongs after.program →
        ∀ floor ≤ encoder.program.counterCount,
          placed final encoder.address after.address floor

variable {encoder middle after : Encoder} {direction : Direction} {done : Unit}
  {first second : Encode Unit} {placed following : Program → (first last floor : Nat) → Prop}

namespace Lays

theorem pure : Lays (Pure.pure ()) fun _ first last _ => last = first := by
  intro encoder after returns
  rcases pure_eq_ok.mp returns with ⟨-, rfl⟩
  exact ⟨.refl _, fun _ _ _ _ => rfl⟩

theorem bind (front : Lays first placed) (back : Lays second following) :
    Lays (first >>= fun _ => second) fun final first last floor =>
      ∃ middle, placed final first middle floor ∧ following final middle last floor := by
  intro encoder after returns
  rcases bind_eq_ok.mp returns with ⟨_, middle, left, right⟩
  rcases front encoder middle left with ⟨lower, before⟩
  rcases back middle after right with ⟨upper, behind⟩
  refine ⟨upper.trans lower, fun final prolongs floor below => ?_⟩
  exact ⟨middle.address, before final (prolongs.trans upper) floor below,
    behind final prolongs floor (Nat.le_trans below lower.counters)⟩

theorem imp (lays : Lays first placed)
    (weaker : ∀ final first last floor, placed final first last floor →
      following final first last floor) : Lays first following := by
  intro encoder after returns
  rcases lays encoder after returns with ⟨grown, places⟩
  exact ⟨grown, fun final prolongs floor below =>
    weaker _ _ _ _ (places final prolongs floor below)⟩

theorem bindLabel (label : Label) :
    Lays (Encoder.bindLabel label) fun final first last _ =>
      last = first ∧ final.target? label = some first := by
  intro encoder after returns
  have advances := Advances.bindLabel returns
  exact ⟨advances.prolongs, fun final prolongs _ _ =>
    ⟨advances.address, bound_stays returns prolongs⟩⟩

theorem freshLabel {next : Label → Encode Unit}
    {placed : Label → Program → (first last floor : Nat) → Prop}
    (lays : ∀ label, Lays (next label) (placed label)) :
    Lays (Encoder.freshLabel >>= next) fun final first last floor =>
      ∃ label, placed label final first last floor := by
  intro encoder after returns
  rcases bind_eq_ok.mp returns with ⟨label, middle, fresh, rest⟩
  have advances := Advances.freshLabel fresh
  have same : middle.address = encoder.address := advances.address
  rcases lays label middle after rest with ⟨grown, places⟩
  refine ⟨grown.trans advances.prolongs, fun final prolongs floor below => ⟨label, ?_⟩⟩
  rw [← same]
  exact places final prolongs floor (Nat.le_trans below advances.prolongs.counters)

theorem freshLabels {α : Type} (items : List α) {next : List Label → Encode Unit}
    {placed : List Label → Program → (first last floor : Nat) → Prop}
    (lays : ∀ labels, labels.length = items.length → Lays (next labels) (placed labels)) :
    Lays (items.mapM (fun _ => Encoder.freshLabel) >>= next) fun final first last floor =>
      ∃ labels, labels.length = items.length ∧ placed labels final first last floor := by
  induction items generalizing next placed with
  | nil =>
      simp only [List.mapM_nil, pure_bind]
      exact (lays [] rfl).imp fun _ _ _ _ places => ⟨[], rfl, places⟩
  | cons item rest induction =>
      simp only [List.mapM_cons, bind_assoc, pure_bind]
      refine (freshLabel fun label => induction fun labels length =>
        lays (label :: labels) (by simpa using length)).imp ?_
      intro final first last floor placed
      rcases placed with ⟨label, labels, length, places⟩
      exact ⟨label :: labels, by simpa using length, places⟩

theorem freshCounter {next : UInt16 → Encode Unit}
    {placed : UInt16 → Program → (first last floor : Nat) → Prop}
    (lays : ∀ counter, Lays (next counter) (placed counter)) :
    Lays (Encoder.freshCounter >>= next) fun final first last floor =>
      ∃ counter, floor ≤ counter.toNat ∧
        placed counter final first last (counter.toNat + 1) := by
  intro encoder after returns
  rcases bind_eq_ok.mp returns with ⟨counter, middle, fresh, rest⟩
  have advances := Advances.freshCounter fresh
  have same : middle.address = encoder.address := advances.address
  rcases freshCounter_eq_ok.mp fresh with ⟨number, rfl⟩
  rw [word16?_eq_some_iff] at number
  rcases lays counter _ after rest with ⟨grown, places⟩
  refine ⟨grown.trans advances.prolongs, fun final prolongs floor below => ⟨counter, ?_, ?_⟩⟩
  · rw [number]
    exact below
  · rw [← same]
    exact places final prolongs _ (Nat.succ_le_succ (Nat.le_of_eq number))

theorem single {action : Encode Unit} {placed : Program → Nat → Prop}
    (appends : ∀ encoder after, action encoder = .ok () after →
      ∃ middle instruction, middle.Advances encoder 0 ∧
        after = Encoder.appended middle instruction ∧
          ∀ final : Program, final.Prolongs middle.program →
            final.instructions[encoder.address]? = some instruction →
              placed final encoder.address) :
    Lays action fun final first last _ => last = first + 1 ∧ placed final first := by
  intro encoder after returns
  rcases appends _ _ returns with ⟨middle, instruction, advances, rfl, places⟩
  have appended := Advances.append middle instruction
  have same : middle.address = encoder.address := advances.address
  refine ⟨appended.prolongs.trans advances.prolongs, fun final prolongs floor _ => ?_⟩
  rw [appended.address, same]
  refine ⟨rfl, places final (prolongs.trans appended.prolongs) ?_⟩
  rw [← same]
  exact appended_stays prolongs

theorem append (instruction : Instruction) :
    Lays (discard (Encoder.append instruction)) fun final first last _ =>
      last = first + 1 ∧ final.instructions[first]? = some instruction := by
  apply single
  intro encoder after returns
  rcases discard_append_eq_ok.mp returns with ⟨-, rfl⟩
  exact ⟨encoder, _, .refl encoder, rfl, fun _ _ found => found⟩

theorem beginCapture (group : UInt16) :
    Lays (discard (Encoder.beginCapture group)) fun final first last _ =>
      last = first + 1 ∧ final.instructions[first]? = some (.beginCapture group) := by
  apply single
  intro encoder after returns
  simp only [discard_eq_ok, Encoder.beginCapture, bind_eq_ok, append_eq_ok] at returns
  rcases returns with ⟨_, _, middle, reserved, -, -, rfl⟩
  exact ⟨middle, _, .reserveGroup reserved, rfl, fun _ _ found => found⟩

theorem endCapture (group : UInt16) :
    Lays (discard (Encoder.endCapture group)) fun final first last _ =>
      last = first + 1 ∧ final.instructions[first]? = some (.endCapture group) := by
  apply single
  intro encoder after returns
  simp only [discard_eq_ok, Encoder.endCapture, bind_eq_ok, append_eq_ok] at returns
  rcases returns with ⟨_, _, middle, reserved, -, -, rfl⟩
  exact ⟨middle, _, .reserveGroup reserved, rfl, fun _ _ found => found⟩

theorem quantify (greed : Greed) (min max : UInt32) (counter : UInt16) (exit : Label) :
    Lays (discard (Encoder.quantify greed min max counter exit))
      fun final first last _ => last = first + 1 ∧
        final.instructions[first]? = some (.quantify greed min max counter exit) := by
  apply single
  intro encoder after returns
  simp only [discard_eq_ok, Encoder.quantify] at returns
  rcases returns with ⟨_, returns⟩
  split at returns
  · rcases bind_eq_ok.mp returns with ⟨_, _, thrown, -⟩
    exact absurd thrown throw_ne_ok
  · rcases append_eq_ok.mp returns with ⟨-, -, rfl⟩
    exact ⟨encoder, _, .refl encoder, rfl, fun _ _ found => found⟩

end Lays

theorem forM_concat (actions : List Emitter) (last : Emitter) :
    (actions ++ [last]).forM (· .reverse) =
      (actions.forM (· .reverse) >>= fun _ => last .reverse) := by
  let emit : Emitter → Encode PUnit := fun action => action .reverse
  have parts : forM (actions ++ [last]) emit =
      (forM actions emit >>= fun _ => forM [last] emit) := List.forM_append
  have single : forM [last] emit = last .reverse := by simp [emit]
  exact parts.trans (congrArg (forM actions emit >>= ·) (funext fun _ => single))

variable [CharacterData]

/-- Emitting the fragment, in either direction, puts it in place. -/
def Emits (fragment : Fragment) : Prop :=
  ∀ direction, Lays (fragment.emit direction) fun final => fragment.Placed final direction

theorem emits_literal (text : Octets) (flags : MatchFlags) : (literal text flags).Emits := by
  intro direction
  apply Lays.single
  intro encoder after returns
  simp only [emit, discard_eq_ok, matchString, bind_eq_ok, append_eq_ok] at returns
  rcases returns with ⟨_, ⟨offset, length⟩, middle, added, -, -, rfl⟩
  refine ⟨middle, _, .addLiteral added, rfl, fun final prolongs found => ?_⟩
  rcases literal_stays added prolongs with ⟨slice, read, same⟩
  exact ⟨offset, length, slice, found, read, same⟩

theorem emits_ofSet (ranges : List Interval) (flags : MatchFlags) (negated : Bool) :
    (ofSet ranges flags negated).Emits := by
  intro direction
  apply Lays.single
  intro encoder after returns
  simp only [emit, discard_eq_ok, matchSet] at returns
  rcases returns with ⟨_, returns⟩
  cases gathered : gatherRanges ranges (flags.has .caseless) with
  | error fault =>
      simp only [gathered] at returns
      exact absurd returns throw_ne_ok
  | ok set =>
      simp only [gathered, bind_eq_ok, append_eq_ok] at returns
      rcases returns with ⟨index, middle, added, -, -, rfl⟩
      refine ⟨middle, _, .addRuneSet added, rfl, fun final prolongs found => ?_⟩
      exact ⟨index, set, found, runeSet_stays added prolongs, rfl⟩

theorem emits_backref (group : UInt16) (flags : MatchFlags) :
    (backref group flags).Emits := by
  intro direction
  apply Lays.single
  intro encoder after returns
  simp only [emit, discard_eq_ok, matchBackref, bind_eq_ok, append_eq_ok] at returns
  rcases returns with ⟨_, _, middle, reserved, -, -, rfl⟩
  exact ⟨middle, _, .reserveGroup reserved, rfl, fun _ _ found => found⟩

theorem emits_skip (count : Nat) : (skip count).Emits := by
  intro direction
  apply Lays.single
  intro encoder after returns
  simp only [emit, discard_eq_ok, advance, bind_eq_ok, orStop_eq_ok, append_eq_ok] at returns
  rcases returns with ⟨_, word, _, ⟨fits, rfl⟩, -, -, rfl⟩
  exact ⟨encoder, _, .refl encoder, rfl, fun _ _ found =>
    ⟨word, word32?_eq_some_iff.mp fits, found⟩⟩

/-! ## Parts -/

theorem lays_forward {parts : List Fragment} (each : ∀ part ∈ parts, part.Emits) :
    Lays ((emitters parts).forM (· .forward)) fun final =>
      PlacedRow final parts .forward := by
  induction parts with
  | nil => exact .pure
  | cons part rest induction =>
      rcases List.forall_mem_cons.mp each with ⟨here, others⟩
      exact (here .forward).bind (induction others)

theorem lays_reverse {parts : List Fragment} (each : ∀ part ∈ parts, part.Emits) :
    Lays ((emitters parts).reverse.forM (· .reverse)) fun final =>
      PlacedRow final parts .reverse := by
  induction parts with
  | nil => exact .pure
  | cons part rest induction =>
      rcases List.forall_mem_cons.mp each with ⟨here, others⟩
      have both := (induction others).bind (here .reverse)
      rw [emitters, List.reverse_cons, forM_concat]
      exact both

def Dispatches (program : Program) : List Label → (first : Nat) → Prop
  | [], _ => True
  | [entry], first => program.instructions[first]? = some (.jump entry)
  | entry :: next :: rest, first =>
      program.instructions[first]? = some (.branch entry) ∧
        Dispatches program (next :: rest) (first + 1)

omit [CharacterData] in
theorem lays_dispatch (entries : List Label) :
    Lays (dispatch entries) fun final first last _ =>
      last = first + entries.length ∧ Dispatches final entries first := by
  induction entries with
  | nil => exact Lays.pure.imp fun _ _ _ _ same => ⟨same, trivial⟩
  | cons entry rest induction =>
      cases rest with
      | nil => exact Lays.append (.jump entry)
      | cons next rest =>
          refine ((Lays.append (.branch entry)).bind induction).imp ?_
          intro final first last floor placed
          rcases placed with ⟨middle, ⟨rfl, branched⟩, rfl, dispatches⟩
          refine ⟨?_, branched, dispatches⟩
          simp only [List.length_cons]
          omega

theorem lays_alternatives {exit : Label} {entries : List Label}
    {alternatives : List Fragment} (same : entries.length = alternatives.length)
    (each : ∀ alternative ∈ alternatives, alternative.Emits) (direction : Direction) :
    Lays (emitAlternatives exit direction (entries.zip (emitters alternatives)))
      fun final first last floor => alternatives ≠ [] → final.target? exit = some last →
        ∀ entry, Dispatches final entries entry →
          PlacedChoice final alternatives direction entry first last floor := by
  induction alternatives generalizing entries with
  | nil =>
      have empty : entries = [] := by simpa using same
      subst empty
      exact Lays.pure.imp fun _ _ _ _ _ absent => absurd rfl absent
  | cons alternative rest induction =>
      rcases List.forall_mem_cons.mp each with ⟨here, others⟩
      cases entries with
      | nil => cases same
      | cons target entries =>
          have same : entries.length = rest.length := by simpa using same
          have bound := (Lays.bindLabel target).bind (here direction)
          cases rest with
          | nil =>
              have empty : entries = [] := by simpa using same
              subst empty
              refine bound.imp ?_
              intro final first last floor placed _ _ entry jumped
              rcases placed with ⟨_, ⟨rfl, found⟩, placed⟩
              exact ⟨target, last, found, placed, jumped, rfl⟩
          | cons next rest =>
              cases entries with
              | nil => cases same
              | cons second entries =>
                  have following := (Lays.append (.jump exit)).bind (induction same others)
                  refine ((Lays.bindLabel target).bind
                    ((here direction).bind following)).imp ?_
                  intro final first last floor placed _ ends entry other
                  rcases placed with ⟨_, ⟨rfl, found⟩, middle, placed, _,
                    ⟨rfl, jumped⟩, rest⟩
                  rcases other with ⟨branched, dispatches⟩
                  exact ⟨target, middle, found, placed, branched, ⟨exit, jumped, ends⟩,
                    rest (by simp) ends (entry + 1) dispatches⟩

theorem length_emitters (fragments : List Fragment) :
    (emitters fragments).length = fragments.length := by
  induction fragments with
  | nil => rfl
  | cons fragment rest induction => exact congrArg (· + 1) induction

theorem emits_alternation {alternatives : List Fragment}
    (each : ∀ alternative ∈ alternatives, alternative.Emits) :
    (alternation alternatives).Emits := by
  intro direction
  cases alternatives with
  | nil => exact Lays.append .fail
  | cons alternative rest =>
      have lengths := length_emitters (alternative :: rest)
      refine (Lays.freshLabels (emitters (alternative :: rest)) fun entries length =>
        Lays.freshLabel fun exit =>
          (lays_dispatch entries).bind <|
          (lays_alternatives (length.trans lengths) each direction).bind <|
          Lays.bindLabel exit).imp ?_
      intro final first last floor placed
      rcases placed with ⟨entries, length, exit, _, ⟨rfl, dispatches⟩, _,
        places, rfl, ends⟩
      have placed := places (by simp) ends first dispatches
      rw [length, lengths] at placed
      exact placed

theorem emits_repetition (greed : Greed) (min max : UInt32) {body : Fragment}
    (emits : body.Emits) : (repetition greed min max body).Emits := by
  intro direction
  refine (Lays.freshCounter fun counter => Lays.freshLabel fun head =>
    Lays.freshLabel fun exit =>
      (Lays.append (.repeatStart counter)).bind <|
      (Lays.bindLabel head).bind <|
      (Lays.quantify greed min max counter exit).bind <|
      (emits direction).bind <|
      (Lays.append (.repeatEnd counter head)).bind <|
      Lays.bindLabel exit).imp ?_
  intro final first last floor placed
  rcases placed with ⟨counter, above, head, exit, _, ⟨rfl, started⟩, _,
    ⟨rfl, returns⟩, _, ⟨rfl, quantified⟩, middle, placed, _, ⟨rfl, repeated⟩, rfl, ends⟩
  exact ⟨counter, exit, head, middle, above, rfl, started, quantified, ends, placed,
    repeated, returns⟩

theorem emits_capture (group : UInt16) {body : Fragment} (emits : body.Emits) :
    (capture group body).Emits := by
  intro direction
  cases direction with
  | forward =>
      refine ((Lays.beginCapture group).bind
        ((emits .forward).bind (Lays.endCapture group))).imp ?_
      intro final first last floor placed
      rcases placed with ⟨_, ⟨rfl, opened⟩, middle, placed, rfl, closed⟩
      exact ⟨middle, rfl, opened, placed, closed⟩
  | reverse =>
      refine ((Lays.endCapture group).bind
        ((emits .reverse).bind (Lays.beginCapture group))).imp ?_
      intro final first last floor placed
      rcases placed with ⟨_, ⟨rfl, closed⟩, middle, placed, rfl, opened⟩
      exact ⟨middle, rfl, closed, placed, opened⟩

theorem emits_lookaround (sight : Direction) (negated : Bool) {body : Fragment}
    (emits : body.Emits) : (lookaround sight negated body).Emits := by
  intro direction
  cases negated with
  | true =>
      refine (Lays.freshLabel fun exit =>
        (Lays.append (.save exit)).bind <|
        (emits sight).bind <|
        (Lays.append (.clearThrough exit false)).bind <|
        (Lays.append .fail).bind <|
        Lays.bindLabel exit).imp ?_
      intro final first last floor placed
      rcases placed with ⟨exit, _, ⟨rfl, saved⟩, middle, placed, _,
        ⟨rfl, committed⟩, _, ⟨rfl, failed⟩, rfl, bound⟩
      exact ⟨exit, middle, rfl, saved, bound, placed, committed, failed⟩
  | false =>
      refine (Lays.freshLabel fun failure => Lays.freshLabel fun exit =>
        (Lays.append (.save failure)).bind <|
        (emits sight).bind <|
        (Lays.append (.clearThrough failure true)).bind <|
        (Lays.append (.jump exit)).bind <|
        (Lays.bindLabel failure).bind <|
        (Lays.append .fail).bind <|
        Lays.bindLabel exit).imp ?_
      intro final first last floor placed
      rcases placed with ⟨failure, exit, _, ⟨rfl, saved⟩, middle, placed, _,
        ⟨rfl, committed⟩, _, ⟨rfl, jumped⟩, _, ⟨rfl, bound⟩, _, ⟨rfl, failed⟩, rfl, ends⟩
      exact ⟨failure, exit, middle, rfl, saved, bound, placed, committed, jumped, ends,
        failed⟩

theorem emits (fragment : Fragment) : fragment.Emits := by
  induction fragment using Fragment.induct with
  | literal text flags => exact emits_literal text flags
  | any flags =>
      exact fun direction => Lays.append
        (.matchAny direction (flags.has .newline) (flags.has .boundary))
  | ofClass runeClass flags negated =>
      exact fun direction => Lays.append
        (.matchClass direction runeClass negated (flags.has .boundary))
  | ofSet ranges flags negated => exact emits_ofSet ranges flags negated
  | backref group flags => exact emits_backref group flags
  | skip count => exact emits_skip count
  | anchored anchor => exact fun _ => Lays.append (.assertAnchor anchor)
  | sequence parts induction =>
      intro direction
      cases direction with
      | forward => exact lays_forward induction
      | reverse => exact lays_reverse induction
  | alternation alternatives induction => exact emits_alternation induction
  | repetition greed min max body induction =>
      exact emits_repetition greed min max induction
  | capture group body induction => exact emits_capture group induction
  | lookaround sight negated body induction => exact emits_lookaround sight negated induction

end Fragment

end RegexMachine
