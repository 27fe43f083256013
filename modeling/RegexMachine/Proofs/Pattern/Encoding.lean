import RegexMachine.Pattern.Encoder

/-! # Encoder operations that return

What an operation of the encoder has done if it returns. An operation made of
others returns just if each of them does. -/

namespace RegexMachine

namespace Encoder

variable {α β : Type} {encoder after : Encoder} {result : α}
  {done : Unit}

/-! ## The monad -/

theorem bind_eq_ok {first : Encode α} {second : α → Encode β} {result : β} :
    (first >>= second) encoder = .ok result after ↔
      ∃ value middle, first encoder = .ok value middle ∧
        second value middle = .ok result after := by
  change EStateM.bind first second encoder = _ ↔ _
  unfold EStateM.bind
  cases first encoder with
  | ok value middle =>
      constructor
      · exact fun returns => ⟨value, middle, rfl, returns⟩
      · intro returned
        rcases returned with ⟨_, _, ⟨⟩, returns⟩
        exact returns
  | error fault middle => simp

theorem bind_of_error {first : Encode α} {second : α → Encode β} {fault : Fault}
    (stops : first encoder = .error fault after) :
    (first >>= second) encoder = .error fault after := by
  change EStateM.bind first second encoder = _
  rw [EStateM.bind, stops]

theorem pure_eq_ok {value : α} :
    (pure value : Encode α) encoder = .ok result after ↔
      value = result ∧ encoder = after := by
  change EStateM.Result.ok value encoder = _ ↔ _
  simp

theorem throw_ne_ok {fault : Fault} :
    (throw fault : Encode α) encoder ≠ .ok result after := by
  change EStateM.Result.error fault encoder ≠ _
  simp

theorem get_eq_ok {read : Encoder} :
    (get : Encode Encoder) encoder = .ok read after ↔ encoder = read ∧ encoder = after := by
  change EStateM.Result.ok encoder encoder = _ ↔ _
  simp

theorem change_eq_ok {next : Program → Program} :
    change next encoder = .ok done after ↔
      { encoder with program := next encoder.program } = after := by
  change EStateM.Result.ok () _ = _ ↔ _
  simp

theorem changeGet_eq_ok {read : Program → α} {next : Program → Program} :
    changeGet read next encoder = .ok result after ↔
      read encoder.program = result ∧
        { encoder with program := next encoder.program } = after := by
  change EStateM.Result.ok _ _ = _ ↔ _
  simp

theorem orStop_eq_ok {operand : Option α} {fault : Fault} :
    orStop operand fault encoder = .ok result after ↔
      operand = some result ∧ encoder = after := by
  cases operand with
  | none => simp [orStop, throw_ne_ok]
  | some value => simp [orStop, pure_eq_ok]

theorem discard_eq_ok {action : Encode α} :
    discard action encoder = .ok done after ↔ ∃ result, action encoder = .ok result after := by
  change EStateM.map _ action encoder = _ ↔ _
  unfold EStateM.map
  cases action encoder <;> simp

theorem discard_eq_bind (action : Encode α) :
    discard action = action >>= fun _ => pure () := by
  rw [discard, map_const]
  exact (bind_pure_comp _ _).symm

/-! ## Resources -/

theorem freshLabel_eq_ok {label : Label} :
    freshLabel encoder = .ok label after ↔
      encoder.program.targets.size + 1 < 0x100000000 ∧
        label = ⟨encoder.program.targets.size.toUInt32⟩ ∧
          after = { encoder with program := { encoder.program with
            targets := encoder.program.targets.push none } } := by
  unfold freshLabel
  simp only [bind_eq_ok, changeGet_eq_ok]
  constructor
  · intro returned
    rcases returned with ⟨_, _, ⟨rfl, rfl⟩, returns⟩
    split at returns
    · next fits =>
        rcases pure_eq_ok.mp returns with ⟨rfl, rfl⟩
        exact ⟨fits, rfl, rfl⟩
    · exact absurd returns throw_ne_ok
  · intro given
    rcases given with ⟨fits, rfl, rfl⟩
    exact ⟨_, _, ⟨rfl, rfl⟩, by rw [if_pos fits]; rfl⟩

theorem bindLabel_eq_ok {label : Label} :
    bindLabel label encoder = .ok done after ↔
      encoder.program.targets[label.id.toNat]? = some none ∧
        after = { encoder with program := { encoder.program with
          targets := encoder.program.targets.setIfInBounds label.id.toNat
            (some encoder.program.instructions.size) } } := by
  unfold bindLabel
  simp only [bind_eq_ok, get_eq_ok]
  constructor
  · intro returned
    rcases returned with ⟨_, _, ⟨rfl, rfl⟩, returns⟩
    split at returns
    · next unbound => exact ⟨unbound, (change_eq_ok.mp returns).symm⟩
    · exact absurd returns throw_ne_ok
  · intro given
    rcases given with ⟨unbound, rfl⟩
    exact ⟨_, _, ⟨rfl, rfl⟩, by rw [if_pos unbound]; rfl⟩

theorem reserveGroup_eq_ok {group : UInt16} :
    reserveGroup group encoder = .ok done after ↔
      group ≠ 0 ∧ after = { encoder with program := { encoder.program with
        captureCount := max encoder.program.captureCount (group.toNat + 1) } } := by
  unfold reserveGroup
  by_cases zero : group = 0
  · simp [zero, bind_eq_ok, throw_ne_ok]
  · simp only [zero, if_false, change_eq_ok, ne_eq, not_false_eq_true, true_and]
    exact eq_comm

theorem freshGroup_eq_ok {group : UInt16} :
    freshGroup encoder = .ok group after ↔
      word16? encoder.program.captureCount = some group ∧ group ≠ 0 ∧
        after = { encoder with program := { encoder.program with
          captureCount := max encoder.program.captureCount (group.toNat + 1) } } := by
  unfold freshGroup
  simp only [bind_eq_ok, get_eq_ok, orStop_eq_ok, pure_eq_ok, reserveGroup_eq_ok]
  constructor
  · intro returned
    rcases returned with ⟨_, _, ⟨rfl, rfl⟩, _, _, ⟨fits, rfl⟩, _, _, ⟨named, rfl⟩, rfl, rfl⟩
    exact ⟨fits, named, rfl⟩
  · intro given
    rcases given with ⟨fits, named, rfl⟩
    exact ⟨_, _, ⟨rfl, rfl⟩, _, _, ⟨fits, rfl⟩, (), _, ⟨named, rfl⟩, rfl, rfl⟩

theorem freshCounter_eq_ok {counter : UInt16} :
    freshCounter encoder = .ok counter after ↔
      word16? encoder.program.counterCount = some counter ∧
        after = { encoder with program := { encoder.program with
          counterCount := encoder.program.counterCount + 1 } } := by
  unfold freshCounter
  simp only [bind_eq_ok, get_eq_ok, orStop_eq_ok, pure_eq_ok, change_eq_ok]
  constructor
  · intro returned
    rcases returned with ⟨_, _, ⟨rfl, rfl⟩, _, _, ⟨fits, rfl⟩, _, _, rfl, rfl, rfl⟩
    exact ⟨fits, rfl⟩
  · intro given
    rcases given with ⟨fits, rfl⟩
    exact ⟨_, _, ⟨rfl, rfl⟩, _, _, ⟨fits, rfl⟩, (), _, rfl, rfl, rfl⟩

theorem addLiteral_eq_ok {literal : Octets} {offset : UInt32} {length : UInt16} :
    addLiteral literal encoder = .ok (offset, length) after ↔
      word32? encoder.program.data.size = some offset ∧
        word16? literal.size = some length ∧
          after = { encoder with program := { encoder.program with
            data := encoder.program.data ++ literal } } := by
  unfold addLiteral
  simp only [bind_eq_ok, changeGet_eq_ok, orStop_eq_ok, pure_eq_ok, Prod.mk.injEq]
  constructor
  · intro returned
    rcases returned with
      ⟨_, _, ⟨rfl, rfl⟩, _, _, ⟨first, rfl⟩, _, _, ⟨second, rfl⟩, ⟨rfl, rfl⟩, rfl⟩
    exact ⟨first, second, rfl⟩
  · intro given
    rcases given with ⟨first, second, rfl⟩
    exact ⟨_, _, ⟨rfl, rfl⟩, _, _, ⟨first, rfl⟩, _, _, ⟨second, rfl⟩, ⟨rfl, rfl⟩, rfl⟩

theorem addRuneSet_eq_ok {set : RuneSet} {index : UInt16} :
    addRuneSet set encoder = .ok index after ↔
      word16? encoder.program.runeSets.size = some index ∧
        after = { encoder with program := { encoder.program with
          runeSets := encoder.program.runeSets.push set } } := by
  unfold addRuneSet
  simp only [bind_eq_ok, changeGet_eq_ok, orStop_eq_ok]
  constructor
  · intro returned
    rcases returned with ⟨_, _, ⟨rfl, rfl⟩, fits, rfl⟩
    exact ⟨fits, rfl⟩
  · intro given
    rcases given with ⟨fits, rfl⟩
    exact ⟨_, _, ⟨rfl, rfl⟩, fits, rfl⟩

/-! ## Instructions -/

def appended (encoder : Encoder) (instruction : Instruction) : Encoder :=
  { encoder with program := { encoder.program with
    instructions := encoder.program.instructions.push instruction } }

theorem append_eq_ok {instruction : Instruction} {address : Nat} :
    append instruction encoder = .ok address after ↔
      encoder.finished = false ∧ address = encoder.program.instructions.size ∧
        after = encoder.appended instruction := by
  unfold append
  simp only [bind_eq_ok, get_eq_ok]
  constructor
  · intro returned
    rcases returned with ⟨_, _, ⟨rfl, rfl⟩, returns⟩
    split at returns
    · rcases bind_eq_ok.mp returns with ⟨_, _, thrown, -⟩
      exact absurd thrown throw_ne_ok
    · next unfinished =>
        rcases changeGet_eq_ok.mp returns with ⟨rfl, rfl⟩
        exact ⟨by simpa using unfinished, rfl, rfl⟩
  · intro given
    rcases given with ⟨unfinished, rfl, rfl⟩
    refine ⟨_, _, ⟨rfl, rfl⟩, ?_⟩
    rw [if_neg (by simp [unfinished])]
    rfl

theorem append_of_finished {instruction : Instruction} (finished : encoder.finished = true) :
    append instruction encoder = .error .finished encoder := by
  change (if encoder.finished then (throw .finished : Encode Unit) >>= _ else _ : Encode Nat)
    encoder = _
  rw [if_pos finished]
  rfl

theorem discard_append_eq_ok {instruction : Instruction} :
    discard (append instruction) encoder = .ok done after ↔
      encoder.finished = false ∧ after = encoder.appended instruction := by
  simp only [discard_eq_ok, append_eq_ok]
  exact ⟨fun ⟨_, unfinished, _, same⟩ => ⟨unfinished, same⟩,
    fun ⟨unfinished, same⟩ => ⟨_, unfinished, rfl, same⟩⟩

/-- A program is handed over once, and only without a defect. -/
theorem finish_eq (encoder : Encoder) :
    finish encoder =
      if encoder.finished then .error .finished encoder
      else match encoder.program.defect? with
        | some rejection => .error (.rejected rejection) { encoder with finished := true }
        | none => .ok encoder.program { program := {}, finished := true } := by
  change (if encoder.finished then (throw .finished : Encode Unit) >>= _ else _ : Encode Program)
    encoder = _
  split
  · rfl
  · change (match encoder.program.defect? with
      | some rejection => throw (.rejected rejection)
      | none => _ : Encode Program) { encoder with finished := true } = _
    cases encoder.program.defect? <;> rfl

theorem sound_of_finish {program : Program}
    (returns : finish encoder = .ok program after) :
    program = encoder.program ∧ encoder.program.defect? = none := by
  rw [finish_eq] at returns
  split at returns
  · cases returns
  · split at returns
    · cases returns
    · next sound =>
        cases returns
        exact ⟨rfl, sound⟩

theorem finish_of_sound (unfinished : encoder.finished = false)
    (sound : encoder.program.defect? = none) :
    finish encoder = .ok encoder.program { program := {}, finished := true } := by
  rw [finish_eq, unfinished, sound]
  rfl

end Encoder

/-! ## Words -/

theorem word16?_eq_some_iff {value : Nat} {word : UInt16} :
    word16? value = some word ↔ word.toNat = value := by
  unfold word16?
  split
  · next fits =>
      rw [Option.some.injEq]
      constructor
      · intro same
        subst same
        exact Nat.mod_eq_of_lt fits
      · intro same
        subst same
        exact UInt16.ofNat_toNat
  · next large =>
      simp only [reduceCtorEq, false_iff]
      intro same
      subst same
      exact large word.toNat_lt

theorem word32?_eq_some_iff {value : Nat} {word : UInt32} :
    word32? value = some word ↔ word.toNat = value := by
  unfold word32?
  split
  · next fits =>
      rw [Option.some.injEq]
      constructor
      · intro same
        subst same
        exact Nat.mod_eq_of_lt fits
      · intro same
        subst same
        exact UInt32.ofNat_toNat
  · next large =>
      simp only [reduceCtorEq, false_iff]
      intro same
      subst same
      exact large word.toNat_lt

end RegexMachine
