import RegexMachine.Proofs.Pattern.Progress

/-! # Groups with their ends in order

A capture writes one end of its group where it is entered and the other one where it
leads. If its body leaves the group alone, these two are still together behind the
capture, and they are in order since the body leads in its direction. -/

namespace RegexMachine

namespace Outcome

def Ordered (here : Outcome) (group : Nat) : Prop :=
  ∀ first last, here.starts group = some first → here.ends group = some last → first ≤ last

def KeepsEnds (group : Nat) (here there : Outcome) : Prop :=
  there.starts group = here.starts group ∧ there.ends group = here.ends group

variable {group other : Nat} {here middle there : Outcome}

theorem spanOf_eq_some_iff {span : Span} :
    here.spanOf group = some span ↔
      here.starts group = some span.first ∧ here.ends group = some span.last ∧
        span.first ≤ span.last := by
  constructor
  · intro captured
    unfold spanOf at captured
    split at captured
    · next first last starts ends =>
        split at captured
        · next ordered =>
            cases captured
            exact ⟨starts, ends, ordered⟩
        · cases captured
    · cases captured
  · rintro ⟨starts, ends, ordered⟩
    simp only [spanOf, starts, ends, ordered, if_true]

theorem starts_setStart (here : Outcome) (group : Nat) :
    (here.setStart group).starts group = some here.position := if_pos rfl

theorem ends_setEnd (here : Outcome) (group : Nat) :
    (here.setEnd group).ends group = some here.position := if_pos rfl

theorem keepsEnds_setStart (apart : group ≠ other) (here : Outcome) :
    KeepsEnds group here (here.setStart other) := ⟨if_neg apart, rfl⟩

theorem keepsEnds_setEnd (apart : group ≠ other) (here : Outcome) :
    KeepsEnds group here (here.setEnd other) := ⟨rfl, if_neg apart⟩

namespace KeepsEnds

theorem trans (first : KeepsEnds group here middle) (second : KeepsEnds group middle there) :
    KeepsEnds group here there :=
  ⟨second.1.trans first.1, second.2.trans first.2⟩

theorem ordered (keeps : KeepsEnds group here there) (ordered : here.Ordered group) :
    there.Ordered group := by
  intro first last starts ends
  rw [keeps.1] at starts
  rw [keeps.2] at ends
  exact ordered first last starts ends

end KeepsEnds

end Outcome

open Outcome

namespace Fragment

variable {subject : Subject} {direction : Direction} {fragment body : Fragment}
  {group : UInt16} {here there : Outcome}

def Spares (group : UInt16) : Fragment → Prop
  | capture other _ => other ≠ group
  | _ => True

def SparesOwn : Fragment → Prop
  | capture group body => body.Throughout (Spares group)
  | _ => True

/-- No capture lies within a capture of the same group, however deep and whether or not
in what looks ahead or back. -/
def CapturesApart (fragment : Fragment) : Prop := fragment.Throughout SparesOwn

theorem transports_keepsEnds (subject : Subject) (group : Nat) :
    subject.Transports fun _ => KeepsEnds group where
  refl _ _ := ⟨rfl, rfl⟩
  trans _ _ _ _ := .trans
  move _ _ _ _ := ⟨rfl, rfl⟩
  look _ _ _ _ keeps := keeps

variable [CharacterData]

theorem captureRelates_keepsEnds (spares : fragment.Spares group) :
    fragment.CaptureRelates subject fun _ => KeepsEnds group.toNat := by
  cases fragment with
  | capture other body =>
      intro direction keeps here there member
      have apart : group.toNat ≠ other.toNat :=
        fun same => spares (UInt16.toNat_inj.mp same).symm
      cases direction <;>
        obtain ⟨inner, reached, rfl⟩ := List.mem_map.mp member
      · exact (keepsEnds_setStart apart here).trans
          ((keeps _ inner reached).trans (keepsEnds_setEnd apart inner))
      · exact (keepsEnds_setEnd apart here).trans
          ((keeps _ inner reached).trans (keepsEnds_setStart apart inner))
  | _ => trivial

theorem outcomes_keepEnds (spares : fragment.Throughout (Spares group))
    (direction : Direction) :
    (fragment.outcomes subject direction).Relates (KeepsEnds group.toNat) :=
  outcomes_relate (transports_keepsEnds subject group.toNat)
    (spares.imp fun _ => captureRelates_keepsEnds) direction

/-- The two ends that a capture writes belong together. -/
theorem ordered_capture (spares : body.Throughout (Spares group))
    (covered : subject.covers here.position = true)
    (member : there ∈ (capture group body).outcomes subject direction here) :
    there.Ordered group.toNat := by
  intro first last starts ends
  cases direction with
  | forward =>
      obtain ⟨inner, reached, rfl⟩ := List.mem_map.mp member
      have onward : subject.Onward .forward here.position inner.position :=
        body.outcomes_advance .forward (here.setStart group.toNat) covered inner reached
      have kept : inner.starts group.toNat = (here.setStart group.toNat).starts group.toNat :=
        (outcomes_keepEnds spares .forward _ inner reached).1
      have left : inner.starts group.toNat = some first := starts
      rw [kept, starts_setStart] at left
      rw [ends_setEnd] at ends
      cases left
      cases ends
      exact onward.1
  | reverse =>
      obtain ⟨inner, reached, rfl⟩ := List.mem_map.mp member
      have onward : subject.Onward .reverse here.position inner.position :=
        body.outcomes_advance .reverse (here.setEnd group.toNat) covered inner reached
      have kept : inner.ends group.toNat = (here.setEnd group.toNat).ends group.toNat :=
        (outcomes_keepEnds spares .reverse _ inner reached).2
      have right : inner.ends group.toNat = some last := ends
      rw [kept, ends_setEnd] at right
      rw [starts_setStart] at starts
      cases right
      cases starts
      exact onward.2

def KeepsOrder (subject : Subject) (group : UInt16) (here there : Outcome) : Prop :=
  subject.covers here.position = true → here.Ordered group.toNat →
    subject.covers there.position = true ∧ there.Ordered group.toNat

omit [CharacterData] in
theorem transports_keepsOrder (subject : Subject) (group : UInt16) :
    subject.Transports fun _ => KeepsOrder subject group where
  refl _ _ covered ordered := ⟨covered, ordered⟩
  trans _ _ _ _ first second covered ordered :=
    second (first covered ordered).1 (first covered ordered).2
  move _ _ _ onward covered ordered := ⟨(onward covered).covers covered, ordered⟩
  look _ _ _ _ keeps covered ordered := ⟨covered, (keeps covered ordered).2⟩

theorem captureRelates_keepsOrder (spares : fragment.SparesOwn) :
    fragment.CaptureRelates subject fun _ => KeepsOrder subject group := by
  cases fragment with
  | capture other body =>
      intro direction keeps here there member covered ordered
      have onward := (capture other body).outcomes_advance direction here covered there member
      refine ⟨onward.covers covered, ?_⟩
      by_cases same : other = group
      · subst same
        exact ordered_capture spares covered member
      · have apart : group.toNat ≠ other.toNat :=
          fun equal => same (UInt16.toNat_inj.mp equal).symm
        cases direction <;>
          obtain ⟨inner, reached, rfl⟩ := List.mem_map.mp member
        · have entered := (keepsEnds_setStart apart here).ordered ordered
          exact (keepsEnds_setEnd apart inner).ordered (keeps _ inner reached covered entered).2
        · have entered := (keepsEnds_setEnd apart here).ordered ordered
          exact (keepsEnds_setStart apart inner).ordered (keeps _ inner reached covered entered).2
  | _ => trivial

/-- A fragment whose captures are apart keeps the ends of every group in order. -/
theorem outcomes_ordered (apart : fragment.CapturesApart)
    (covered : subject.covers here.position = true) (ordered : here.Ordered group.toNat)
    (member : there ∈ fragment.outcomes subject direction here) :
    there.Ordered group.toNat :=
  (outcomes_relate (transports_keepsOrder subject group)
    (apart.imp fun _ => captureRelates_keepsOrder) direction here there member covered
      ordered).2

end Fragment

end RegexMachine
