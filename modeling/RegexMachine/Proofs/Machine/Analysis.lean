import RegexMachine.Proofs.Machine.StackDepth
import RegexMachine.Proofs.Program.Sweeping
import RegexMachine.Rune.Repertoire

/-! # The analysis of depths is sound

The analysis comes to an end for every program. If it accepts the program, the numbers
that it has settled on are exceeded in no state of any run, neither where the machine is
nor wherever a save point resumes. -/

namespace RegexMachine

namespace SaveDepths

/-- What has been found is known for every address that matters in the state, and is not
more than what is there. Save points are told by what is below them on the stack. -/
structure Underestimates (depths : SaveDepths) (state : State) : Prop where
  here : Admits depths.depth state.address state.saves.points.length
  resumes : ∀ above save below, state.saves.points = above ++ save :: below →
    Admits depths.depth save.resume below.length
  markers : ∀ above save below, state.saves.points = above ++ save :: below →
    save.marker = true → Admits depths.marker save.resume below.length

theorem underestimates_of_within {depths : SaveDepths} {state : State}
    (within : state.Within depths) : depths.Underestimates state where
  here := within.here
  resumes above save below shape := by
    have supports := within.supports
    rw [shape] at supports
    exact supports.drop.1
  markers above save below shape := by
    have supports := within.supports
    rw [shape] at supports
    exact supports.drop.2.1

end SaveDepths

namespace Program

section

variable [CharacterData]

/-- Sweeping the tables of a program as long as changes are noted comes to an end. If the
program passes validation, then in every state that an attempt at it reaches there are at
least as many save points on the stack as have been found for its address, each save point
and each marked one lies above at least as many as have been found for where it resumes,
and a save point that is to be discarded is there. -/
theorem saveDepths_sound (program : Program) :
    (∃ sweeps, ∀ more, sweeps ≤ more →
      program.settleWithin program.resumePoints more (.initial program.instructions.size) =
        some program.saveDepths) ∧
    (program.validate = .ok () → ∃ depths, program.saveDepths = .ok depths ∧
      ∀ attempt : Attempt, attempt.program = program → attempt.Admitted →
        ∀ left state, attempt.Reaches (attempt.setOut left) state →
          depths.Underestimates state ∧
            (program.instructions[state.address]? = some .clear → state.saves.points ≠ [])) := by
  refine ⟨exists_settleWithin _, fun validated => ?_⟩
  have valid := validate_eq_ok_iff.mp validated
  obtain ⟨depths, found⟩ := valid.settles
  have settled := settled_of_saveDepths found valid.nonempty
  refine ⟨depths, found, ?_⟩
  intro attempt same admitted left state path
  subst same
  have within := Attempt.within_reaches valid settled (.setOut valid admitted left)
    (Attempt.within_setOut settled left) path
  exact ⟨SaveDepths.underestimates_of_within within, fun discards =>
    Attempt.nonempty_of_discards settled within discards (.inl rfl)⟩

def discardingAttempt : Attempt where
  program :=
    { instructions := #[.save ⟨0⟩, .branch ⟨1⟩, .clear, .accept, .fail]
      targets := #[some 4, some 2] }
  subject := .whole (.byUnits #[]) .codePoint
  start := 0
  budget := 0

end

open scoped Repertoire in
theorem discardingAttempt_underestimated :
    ∃ depths state, discardingAttempt.program.saveDepths = .ok depths ∧
      discardingAttempt.Reaches (discardingAttempt.setOut {}) state ∧
      state.saves.points = [⟨2, 0, 0, false⟩, ⟨4, 0, 0, true⟩] ∧
      depths.Underestimates state ∧
      discardingAttempt.program.instructions[state.address]? = some .clear ∧
      state.saves.points ≠ [] := by
  let marked : SaveStack := .push .empty ⟨4, 0, 0, true⟩
  let both : SaveStack := marked.push ⟨2, 0, 0, false⟩
  have saved : discardingAttempt.Next (discardingAttempt.setOut {})
      ⟨1, 0, 1, marked, .new 1 0⟩ := rfl
  have branched : discardingAttempt.Next ⟨1, 0, 1, marked, .new 1 0⟩
      ⟨2, 0, 2, both, .new 1 0⟩ := rfl
  have path := saved.reaches.tail branched
  have admitted : discardingAttempt.Admitted := ⟨rfl, rfl, fun clusters => by cases clusters⟩
  have validated : discardingAttempt.program.validate = .ok () := by cbv
  obtain ⟨depths, found, sound⟩ := (saveDepths_sound discardingAttempt.program).2 validated
  obtain ⟨underestimates, nonempty⟩ := sound discardingAttempt rfl admitted {} _ path
  exact ⟨depths, _, found, path, rfl, underestimates, rfl, nonempty rfl⟩

end Program

end RegexMachine
