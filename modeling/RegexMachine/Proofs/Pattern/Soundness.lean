import RegexMachine.Proofs.Machine.Activations
import RegexMachine.Proofs.Pattern.Brackets
import RegexMachine.Proofs.Pattern.Compilation
import RegexMachine.Proofs.Pattern.Operands
import RegexMachine.Rune.Repertoire

/-! # Compiling is sound

A fragment that has been emitted is compiled: its program is nested because the
fragment is balanced, and grounded because nothing else is emitted, so validation
has nothing to turn away. Its commits find the save points of their own. -/

namespace RegexMachine

section

variable [CharacterData]

/-- Whatever is matched, no execution of the program misses a save point, and every
commit finds the one of its own activation. -/
structure Program.CommitSafe (program : Program) : Prop where
  execute : ∀ processor : Processor, processor.program = program →
    ∀ fuel subject start direction after,
      processor.execute fuel subject start direction ≠ some (.error .missingSavePoint, after)
  commits : ∀ attempt : Attempt, attempt.program = program → attempt.Admitted →
    ∀ left state label keep, attempt.Reaches (attempt.setOut left) state →
      program.instructions[state.address]? = some (.clearThrough label keep) →
        ∃ goal pusher save, attempt.CommitsOwn (attempt.setOut left) state label goal pusher save

theorem Program.Nested.commitSafe {program : Program} (nested : program.Nested)
    (valid : program.Valid) : program.CommitSafe where
  execute := by
    intro processor same fuel subject start direction after executed
    subst same
    rcases Processor.execute_cases executed with reentrant | refused | ran
    · cases reentrant
    · exact Processor.refusal?_ne_missingSavePoint refused
    · obtain ⟨admitted, ending, final, ends, reported⟩ := ran
      have missing := Attempt.result_eq_missingSavePoint_iff.mp reported.symm
      subst missing
      obtain ⟨state, path, strands⟩ :=
        (Attempt.ends_missingSavePoint_iff valid admitted _).mp ⟨final, ends⟩
      have fits := Attempt.fits_reaches valid nested (.setOut valid admitted _)
        (Attempt.fits_setOut _ _) path
      exact Attempt.not_strands nested fits strands
  commits := by
    intro attempt same admitted left state label keep path found
    subst same
    exact Attempt.commitsOwn valid nested admitted left path found

end

namespace Fragment

variable {fragment : Fragment} {entry : Direction} {granularity : Granularity}
  {middle : Encoder}

section

variable [CharacterData]

/-! ## From emitting to compiling -/

section

variable (emitted : fragment.emit entry (.new entry granularity) = .ok () middle)
include emitted

theorem nested_of_emit : (middle.appended .accept).program.Nested := by
  have size : (middle.appended .accept).program.instructions.size = middle.address + 1 :=
    Array.size_push _
  have accepts : (middle.appended .accept).program.instructions[middle.address]? =
      some .accept := Encoder.appended_stays (.refl _)
  obtain ⟨-, places⟩ := fragment.emits entry _ middle emitted
  have placed := places _ (Encoder.Advances.append middle .accept).prolongs 0 (Nat.zero_le _)
  obtain ⟨-, balanced⟩ := fragment.balances _ _ _ _ _ placed
  have body := balanced (by omega)
  intro address instruction found
  obtain ⟨inside, -⟩ := Array.getElem?_eq_some_iff.mp found
  rcases Nat.lt_or_ge address middle.address with before | behind
  · exact body.nests address (Nat.zero_le _) before instruction found
  · obtain rfl : address = middle.address := by omega
    rw [accepts] at found
    cases found
    trivial

theorem ready_of_emit : middle.Ready [] 0 := by
  have secure := fragment.secure entry [] 0 _ (.new entry granularity)
  rw [emitted] at secure
  exact secure

theorem valid_of_emit : (middle.appended .accept).program.Valid where
  closed := ⟨.accept, Array.back?_push, rfl⟩
  resolves address instruction found := by
    have ready : (middle.appended .accept).Ready [] 0 := (ready_of_emit emitted).appended trivial
    exact (nested_of_emit emitted).resolves found (ready.grounded address instruction found)
  settles := (nested_of_emit emitted).settles

theorem compile_of_emit :
    fragment.compile entry granularity = .ok (middle.appended .accept).program := by
  have sound : (middle.appended .accept).program.defect? = none :=
    Program.defect?_eq_none_iff.mpr (valid_of_emit emitted)
  have unfinished := (ready_of_emit emitted).unfinished
  have accepts : discard (Encoder.append .accept) middle = .ok () (middle.appended .accept) :=
    Encoder.discard_append_eq_ok.mpr ⟨unfinished, rfl⟩
  have encoded : fragment.encode entry (.new entry granularity) =
      .ok () (middle.appended .accept) := Encoder.bind_eq_ok.mpr ⟨_, _, emitted, accepts⟩
  have compiled : (do fragment.encode entry; Encoder.finish) (.new entry granularity) =
      .ok (middle.appended .accept).program { program := {}, finished := true } :=
    Encoder.bind_eq_ok.mpr ⟨_, _, encoded, Encoder.finish_of_sound unfinished sound⟩
  rw [compile, compiled]

end

theorem compile_of_emit_error {fault : Fault}
    (emitted : fragment.emit entry (.new entry granularity) = .error fault middle) :
    fragment.compile entry granularity = .error fault := by
  have encoded : fragment.encode entry (.new entry granularity) = .error fault middle :=
    Encoder.bind_of_error emitted
  have compiled : (do fragment.encode entry; Encoder.finish) (.new entry granularity) =
      .error fault middle := Encoder.bind_of_error encoded
  rw [compile, compiled]

theorem emitted_of_compile {program : Program}
    (compiled : fragment.compile entry granularity = .ok program) :
    ∃ middle, fragment.emit entry (.new entry granularity) = .ok () middle ∧
      program = (middle.appended .accept).program := by
  cases emitted : fragment.emit entry (.new entry granularity) with
  | ok _ middle =>
      rw [compile_of_emit emitted] at compiled
      cases compiled
      exact ⟨middle, rfl, rfl⟩
  | error fault middle =>
      rw [compile_of_emit_error emitted] at compiled
      cases compiled

theorem nested_of_compile {program : Program}
    (compiled : fragment.compile entry granularity = .ok program) : program.Nested := by
  rcases emitted_of_compile compiled with ⟨middle, emitted, rfl⟩
  exact nested_of_emit emitted

theorem placed_of_compile {program : Program}
    (compiled : fragment.compile entry granularity = .ok program) :
    ∃ last, fragment.Placed program entry 0 last 0 ∧
      program.instructions[last]? = some .accept ∧ program.instructions.size = last + 1 := by
  rcases emitted_of_compile compiled with ⟨middle, emitted, rfl⟩
  rcases fragment.emits entry _ middle emitted with ⟨-, places⟩
  have placed := places _ (Encoder.Advances.append middle .accept).prolongs 0 (Nat.zero_le _)
  exact ⟨middle.address, placed, Encoder.appended_stays (.refl _), Array.size_push _⟩

/-- Compiling stops while the fragment is emitted, and for an operand of it, or
gives a program that validation accepts and whose executions never miss a save
point. -/
theorem compile_sound (fragment : Fragment) (entry : Direction) (granularity : Granularity) :
    (∃ fault stopped, fragment.compile entry granularity = .error fault ∧
      fragment.emit entry (.new entry granularity) = .error fault stopped ∧
        fault.isOfOperand = true) ∨
    ∃ program, fragment.compile entry granularity = .ok program ∧
      program.validate = .ok () ∧ program.CommitSafe := by
  cases emitted : fragment.emit entry (.new entry granularity) with
  | error fault stopped =>
      have secure := fragment.secure entry [] 0 _ (.new entry granularity)
      rw [emitted] at secure
      exact .inl ⟨fault, stopped, compile_of_emit_error emitted, rfl, secure⟩
  | ok done middle =>
      have valid := valid_of_emit emitted
      exact .inr ⟨_, compile_of_emit emitted, Program.validate_eq_ok_iff.mpr valid,
        (nested_of_emit emitted).commitSafe valid⟩

end

def guardedLook : Fragment :=
  .lookaround .forward false
    (.sequence [.lookaround .forward true (.literal #[0x62] .none), .literal #[0x61] .none])

def guardedLooker : Attempt where
  program :=
    { instructions := #[.save ⟨0⟩, .save ⟨2⟩, .matchString .forward 0 1 false false,
        .clearThrough ⟨2⟩ false, .fail, .matchString .forward 1 1 false false,
        .clearThrough ⟨0⟩ true, .jump ⟨1⟩, .fail, .accept]
      targets := #[some 8, some 9, some 5]
      data := #[0x62, 0x61] }
  subject := .whole (.byUnits #[0x61]) .codePoint
  start := 0
  budget := 0

open scoped Repertoire in
theorem guardedLooker_commitsOwn :
    ∃ state goal pusher save, guardedLooker.Reaches (guardedLooker.setOut {}) state ∧
      guardedLooker.program.instructions[state.address]? = some (.clearThrough ⟨0⟩ true) ∧
        guardedLooker.CommitsOwn (guardedLooker.setOut {}) state ⟨0⟩ goal pusher save := by
  have compiled : guardedLook.compile .forward .codePoint = .ok guardedLooker.program := by
    cbv
  let outer : SaveStack := .push .empty ⟨8, 0, 0, true⟩
  let inner : SaveStack := outer.push ⟨5, 0, 0, true⟩
  have looked : guardedLooker.Next (guardedLooker.setOut {}) ⟨1, 0, 1, outer, .new 1 0⟩ := rfl
  have guarded : guardedLooker.Next ⟨1, 0, 1, outer, .new 1 0⟩ ⟨2, 0, 2, inner, .new 1 0⟩ :=
    rfl
  have failed : guardedLooker.Next ⟨2, 0, 2, inner, .new 1 0⟩ ⟨5, 0, 3, outer, .new 1 0⟩ := by
    cbv
  have passed : guardedLooker.Next ⟨5, 0, 3, outer, .new 1 0⟩ ⟨6, 1, 4, outer, .new 1 0⟩ := by
    cbv
  have path := ((looked.reaches.tail guarded).tail failed).tail passed
  have admitted : guardedLooker.Admitted := ⟨rfl, rfl, fun clusters => by cases clusters⟩
  have found : guardedLooker.program.instructions[6]? = some (.clearThrough ⟨0⟩ true) := rfl
  rcases compile_sound guardedLook .forward .codePoint with ⟨_, _, stops, -⟩ | sound
  · rw [compiled] at stops
    cases stops
  · obtain ⟨program, returned, -, safe⟩ := sound
    rw [compiled] at returned
    cases returned
    obtain ⟨goal, pusher, save, own⟩ :=
      safe.commits guardedLooker rfl admitted {} _ _ _ path found
    exact ⟨_, goal, pusher, save, path, found, own⟩

end Fragment

end RegexMachine
