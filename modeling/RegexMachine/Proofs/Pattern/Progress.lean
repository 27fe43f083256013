import RegexMachine.Proofs.Pattern.Relations

/-! # Fragments lead onward

An outcome of a fragment never lies behind the position from which it was reached,
although a fragment may look in the opposite direction on the way: what looks returns
to where it began. -/

namespace RegexMachine

variable {subject : Subject} {direction : Direction}

def Matcher.Advances (subject : Subject) (direction : Direction) (matcher : Matcher) : Prop :=
  ∀ here : Outcome, subject.covers here.position = true → ∀ there ∈ matcher here,
    subject.Onward direction here.position there.position

def Subject.LeadsOn (subject : Subject) (direction : Direction) (here there : Outcome) :
    Prop :=
  subject.covers here.position = true → subject.Onward direction here.position there.position

theorem Subject.transports_leadsOn (subject : Subject) :
    subject.Transports subject.LeadsOn where
  refl direction _ covered := .refl direction covered
  trans _ _ _ _ first second covered :=
    (first covered).trans (second ((first covered).covers covered))
  move _ _ _ onward := onward
  look direction _ _ _ _ covered := .refl direction covered

variable [CharacterData]

theorem Fragment.captureRelates_leadsOn (fragment : Fragment) :
    fragment.CaptureRelates subject subject.LeadsOn := by
  cases fragment with
  | capture group body =>
      intro direction leads here there member
      cases direction <;>
        obtain ⟨inner, reached, rfl⟩ := List.mem_map.mp member
      · exact leads (here.setStart group.toNat) inner reached
      · exact leads (here.setEnd group.toNat) inner reached
  | _ => trivial

theorem Fragment.outcomes_advance (fragment : Fragment) (direction : Direction) :
    (fragment.outcomes subject direction).Advances subject direction := by
  have leads := fragment.outcomes_relate subject.transports_leadsOn
    (fun part _ => part.captureRelates_leadsOn) direction
  exact fun here covered there member => leads here there member covered

end RegexMachine
