import Mathlib
import RegexMachine.Proofs.Machine.Straying
import RegexMachine.Proofs.Pattern.Duality
import RegexMachine.Proofs.Pattern.Instructions
import RegexMachine.Rune.Repertoire

/-! # Literals of compiled programs

The only instructions with literals in a compiled program are those of the literals of
its fragment. If these are well formed, the program leaves the cuts of a text only by
replaying what is ill-formed in the text itself. -/

namespace RegexMachine

namespace Fragment

def IsFormed : Fragment → Prop
  | literal text _ => text.WellFormed
  | _ => True

variable {program : Program} {fragment : Fragment}

variable [CharacterData]

theorem IsFormed.issues (formed : fragment.IsFormed) :
    fragment.IssuesOnly program (Instruction.Formed program) := by
  intro instruction issues
  cases issues with
  | literal read holds =>
      intro other again
      rw [read] at again
      cases again
      rw [holds]
      exact wellFormed_wanted formed _
  | _ => trivial

theorem formed_of_compile {entry : Direction} {granularity : Granularity}
    (formed : fragment.Throughout IsFormed)
    (compiled : fragment.compile entry granularity = .ok program) : program.Formed :=
  passes_of_compile (formed.imp fun _ => IsFormed.issues) trivial compiled

end Fragment

namespace Processor

section

variable [CharacterData]

/-- The run of a compiled fragment with well-formed literals, from a cut of the text, holds
and reports cuts only, unless it comes to an exact back reference that replays octets which
are not well formed and thereby ends inside of a unit. In a well-formed text it never
does. -/
theorem execute_rests_on_cuts_iff {processor : Processor} {subject : Subject} {start : Nat}
    {fragment : Fragment} {entry : Direction}
    (formed : fragment.Throughout Fragment.IsFormed)
    (compiled : fragment.compile entry .codePoint = .ok processor.program)
    (codePoints : subject.granularity = .codePoint) (cut : subject.IsCut start) :
    let attempt := processor.attempt subject start
    ((∀ state, attempt.Reaches (attempt.setOut processor.state) state →
        state.RestsOn subject.IsCut) ↔
      ∀ state, attempt.Reaches (attempt.setOut processor.state) state →
        ¬attempt.Strays state) ∧
    ((∀ state, attempt.Reaches (attempt.setOut processor.state) state →
        ¬attempt.Strays state) →
      ∀ fuel direction result after,
        processor.execute fuel subject start direction = some (.ok result, after) →
          result.RestsOn subject.IsCut) ∧
    (subject.WellFormed → ∀ state,
      attempt.Reaches (attempt.setOut processor.state) state → ¬attempt.Strays state) := by
  intro attempt
  have valid := (Fragment.compiles compiled).valid
  have literals := Fragment.formed_of_compile formed compiled
  have admitted : attempt.Admitted := admitted_of_codePoints compiled codePoints cut.covers
  have stays := Attempt.restsOn_cuts_iff valid literals codePoints admitted cut processor.state
  refine ⟨stays, fun never fuel direction result after => ?_, fun whole state path => ?_⟩
  · exact restsOn_execute valid fun _ => stays.mpr never
  · have bounds := (Attempt.Bounds.setOut valid admitted processor.state).reaches valid path
    exact Attempt.not_strays_of_wellFormed valid bounds whole
      (Attempt.restsOn_cuts_of_wellFormed valid literals codePoints admitted cut _ whole path)

def repeatedUnit : Fragment := .sequence [.capture 1 (.any .none), .backref 1 .none]

def unitRepeater : Processor where
  program := (repeatedUnit.compile .forward .codePoint).toOption.getD {}
  options := {}

/-- An octet that begins no unit of two, and then a letter that begins with the same one. -/
def strayedLetter : Subject := .whole (.byUnits #[0xC3, 0xC3, 0xA9]) .codePoint

end

open scoped Repertoire in
theorem unitRepeater_strays :
    (∃ result after,
      unitRepeater.execute 5 strayedLetter 0 .forward = some (.ok result, after) ∧
        result.range = ⟨0, 2⟩) ∧
    ¬strayedLetter.IsCut 2 ∧
    ∃ state, (unitRepeater.attempt strayedLetter 0).Reaches
        ((unitRepeater.attempt strayedLetter 0).setOut unitRepeater.state) state ∧
      (unitRepeater.attempt strayedLetter 0).Strays state := by
  have formed : repeatedUnit.Throughout Fragment.IsFormed := by
    simp [repeatedUnit, Fragment.Throughout, Fragment.subfragments, Fragment.subfragmentsEach,
      Fragment.IsFormed]
  have compiled : repeatedUnit.compile .forward .codePoint = .ok unitRepeater.program := by
    cbv
  have cuts (position : Nat)
      (path : Relation.ReflTransGen (Octets.CutAfter #[0xC3, 0xC3, 0xA9] 3) 0 position) :
      position = 0 ∨ position = 1 ∨ position = 3 := by
    induction path with
    | refl => exact .inl rfl
    | tail _ step induction =>
        obtain ⟨inside, rfl⟩ := step
        rcases induction with rfl | rfl | rfl
        · exact .inr (.inl (by cbv))
        · exact .inr (.inr (by cbv))
        · exact absurd inside (Nat.lt_irrefl 3)
  have inside : ¬strayedLetter.IsCut 2 := by
    intro cut
    have listed := cuts 2 cut.2
    omega
  have reported : (unitRepeater.execute 5 strayedLetter 0 .forward).map Prod.fst =
      some (.ok ⟨.accepted, ⟨#[some ⟨0, 2⟩, some ⟨0, 1⟩]⟩, 5⟩) := by cbv
  rcases Option.map_eq_some_iff.mp reported with ⟨⟨result, after⟩, executed, rfl⟩
  refine ⟨⟨_, after, executed, rfl⟩, inside, ?_⟩
  by_contra rests
  obtain ⟨-, reports, -⟩ :=
    execute_rests_on_cuts_iff formed compiled rfl strayedLetter.isCut_lower
  have never := reports fun state path strays => rests ⟨state, path, strays⟩
  exact inside (never 5 .forward _ after executed 0 ⟨0, 2⟩ rfl).2

end Processor

end RegexMachine
