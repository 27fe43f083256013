import RegexMachine.Proofs.Text.Boundaries
import RegexMachine.Proofs.Text.Shortening

/-! # Code points as clusters

Where the clusters of a text are not known, its units are taken for clusters. Between
limits that are cuts of the text the boundaries are then just the cuts, and from a cut the
same is passed among clusters as among code points. -/

namespace RegexMachine

theorem SegmentedText.isBoundary_byUnits {octets : Octets} {position : Nat} :
    (byUnits octets).isBoundary position = true ↔ position ∈ octets.unitBoundaries := by
  rw [isBoundary, Boundaries.contains_iff, byUnits, List.mem_toArray]

namespace Octets

variable {text : Octets} {first last limit position : Nat}

theorem mem_unitBoundaries : position ∈ text.unitBoundaries ↔ text.IsCut 0 text.size position := by
  rw [unitBoundaries, List.mem_append, List.mem_singleton, mem_units_first (Nat.zero_le _)]
  constructor
  · rintro (⟨cut, -⟩ | rfl)
    · exact cut
    · exact isCut_last (Nat.zero_le _)
  · intro cut
    rcases Nat.lt_or_eq_of_le cut.le_last with inside | ended
    · exact .inl ⟨cut, inside⟩
    · exact .inr ended

theorem isCut_later_iff (limited : text.IsCut first last limit) :
    text.IsCut limit last position ↔ text.IsCut first last position ∧ limit ≤ position := by
  constructor
  · intro cut
    exact ⟨⟨limited.1, limited.2.trans cut.2⟩, cut.first_le⟩
  · rintro ⟨cut, behind⟩
    refine ⟨limited.le_last, ?_⟩
    rcases cutsAfter_total limited.2 cut.2 with onward | back
    · exact onward
    · rw [Nat.le_antisymm behind (le_of_cutsAfter back)]

end Octets

namespace Subject

variable {subject : Subject} {position landing : Nat} {direction : Direction}

def regrained (subject : Subject) (granularity : Granularity) : Subject :=
  { subject with granularity }

/-- Between the limits the clusters end where the code points do. -/
def Unitwise (subject : Subject) : Prop :=
  ∀ position, subject.covers position = true →
    (subject.isBoundary position = true ↔ subject.IsCut position)

theorem unitwise_of_segment {octets : Octets} (text : subject.text = .segment octets none)
    (lower : subject.lower ∈ octets.unitBoundaries)
    (upper : subject.upper ∈ octets.unitBoundaries) : subject.Unitwise := by
  intro position covered
  have same : subject.text.octets = octets := by
    rw [text]
    rfl
  rw [Octets.mem_unitBoundaries] at lower upper
  have limited : octets.IsCut subject.lower octets.size subject.upper :=
    (Octets.isCut_later_iff lower).mpr ⟨upper, subject.lower_le_upper⟩
  have marked : subject.isBoundary position = true ↔ octets.IsCut 0 octets.size position := by
    rw [isBoundary, text, SegmentedText.segment, SegmentedText.isBoundary_byUnits,
      Octets.mem_unitBoundaries]
  have within := covers_iff.mp covered
  rw [marked, IsCut, same, Octets.isCut_shorter_iff limited, Octets.isCut_later_iff lower]
  exact ⟨fun cut => ⟨⟨cut, within.1⟩, within.2⟩, fun cut => cut.1.1⟩

namespace Unitwise

variable (unitwise : subject.Unitwise)
include unitwise

theorem isBoundary (cut : subject.IsCut position) : subject.isBoundary position = true :=
  (unitwise position cut.covers).mpr cut

theorem clusterAhead_forward (cut : subject.IsCut position) :
    subject.clusterAhead position .forward = subject.codePointAhead position .forward := by
  have within := covers_iff.mp cut.covers
  rcases Nat.lt_or_eq_of_le within.2 with inside | rfl
  · have landed : subject.IsCut (subject.text.octets.unitFrom position subject.upper).last :=
      Octets.IsCut.next cut inside
    have ahead := subject.text.octets.lt_unitFrom_last inside
    have ends : (subject.text.octets.unitFrom position subject.upper).last ≤ subject.upper :=
      landed.le_last
    have next : subject.text.boundaryAfter? subject.upper position =
        some (subject.text.octets.unitFrom position subject.upper).last := by
      refine SegmentedText.boundaryAfter?_eq_some_iff.mpr
        ⟨ahead, ends, unitwise.isBoundary landed, fun other behind before => ?_⟩
      by_contra boundary
      rw [Bool.not_eq_false] at boundary
      have covered : subject.covers other = true := covers_iff.mpr ⟨by omega, by omega⟩
      have between : subject.IsCut other := (unitwise other covered).mp boundary
      have beyond := Octets.IsCut.unitFrom_last_le_of_lt cut between behind
      omega
    have whole := Octets.unitFrom_eq_of_last_le ahead ends (Nat.le_refl _)
    have starts := subject.text.octets.unitFrom_first position subject.upper
    rw [codePointAhead_forward cut.covers inside]
    simp only [clusterAhead, cut.covers, if_true, next, Option.map_some, clusterBetween, whole]
    generalize subject.text.octets.unitFrom position subject.upper = unit at starts
    cases starts
    rfl
  · have none : subject.text.boundaryAfter? subject.upper subject.upper = none := by
      rw [Option.eq_none_iff_forall_ne_some]
      intro found next
      have := SegmentedText.boundaryAfter?_eq_some_iff.mp next
      omega
    simp only [clusterAhead, codePointAhead, cut.covers, if_true, none, Option.map_none]

theorem clusterAhead_eq (cut : subject.IsCut position) (direction : Direction) :
    subject.clusterAhead position direction = subject.codePointAhead position direction := by
  cases direction with
  | forward => exact unitwise.clusterAhead_forward cut
  | reverse =>
      have within := covers_iff.mp cut.covers
      rcases Nat.lt_or_eq_of_le within.1 with inside | rfl
      · have found := codePointAhead_reverse cut.covers inside
        obtain ⟨landed, back, again⟩ := codePointAhead_back cut found
        rw [Direction.opposite, ← unitwise.clusterAhead_forward landed] at again
        have returns := (clusterAhead_back (unitwise.isBoundary landed) again).2.2
        rw [found, ← returns]
        exact congrArg (subject.clusterAhead · .reverse) back.symm
      · have none : subject.text.boundaryBefore? subject.lower subject.lower = none := by
          rw [Option.eq_none_iff_forall_ne_some]
          intro found previous
          have := SegmentedText.boundaryBefore?_eq_some_iff.mp previous
          omega
        simp only [clusterAhead, codePointAhead, cut.covers, if_true, none, Option.map_none]

theorem unitAhead_eq (cut : subject.IsCut position) (direction : Direction) :
    subject.unitAhead position direction = subject.codePointAhead position direction := by
  cases kind : subject.granularity with
  | codePoint => exact unitAhead_of_codePoints kind position direction
  | grapheme =>
      rw [unitAhead, kind]
      exact unitwise.clusterAhead_eq cut direction

end Unitwise

/-! ## Passing among units of another kind -/

variable (granularity : Granularity)

namespace Unitwise

variable (unitwise : subject.Unitwise)
include unitwise

theorem regrained : (subject.regrained granularity).Unitwise := unitwise

theorem unitAhead_regrained (cut : subject.IsCut position) (direction : Direction) :
    (subject.regrained granularity).unitAhead position direction =
      subject.unitAhead position direction := by
  rw [unitwise.unitAhead_eq cut, (unitwise.regrained granularity).unitAhead_eq cut]
  rfl

theorem passUnit_regrained (cut : subject.IsCut position) (direction : Direction)
    (test : Rune → Bool) :
    (subject.regrained granularity).passUnit position direction test =
      subject.passUnit position direction test := by
  rw [passUnit, passUnit, unitwise.unitAhead_regrained granularity cut]

theorem passUnits_regrained (cut : subject.IsCut position) (direction : Direction)
    (count : Nat) :
    (subject.regrained granularity).passUnits direction count position =
      subject.passUnits direction count position := by
  induction count generalizing position with
  | zero => rfl
  | succ count induction =>
      rw [passUnits, passUnits, unitwise.unitAhead_regrained granularity cut,
        unitwise.unitAhead_eq cut]
      cases found : subject.codePointAhead position direction with
      | none => rfl
      | some unit => exact induction (codePointAhead_back cut found).1

/-! ## Landing on cuts -/

theorem isCut_of_passUnit {test : Rune → Bool} (cut : subject.IsCut position)
    (passes : subject.passUnit position direction test = some landing) :
    subject.IsCut landing := by
  rw [← unitwise.passUnit_regrained .codePoint cut] at passes
  have codePoints : (subject.regrained .codePoint).granularity = .codePoint := rfl
  exact (passUnit_mirrors codePoints direction test cut passes).1

theorem isCut_of_passUnits {count : Nat} (cut : subject.IsCut position)
    (passes : subject.passUnits direction count position = some landing) :
    subject.IsCut landing := by
  rw [← unitwise.passUnits_regrained .codePoint cut] at passes
  have codePoints : (subject.regrained .codePoint).granularity = .codePoint := rfl
  exact (passUnits_mirrors codePoints direction count cut passes).1

end Unitwise

/-! ## Literals -/

variable [CharacterData]

theorem passFolded_regrained (literal : Octets) (direction : Direction)
    (position first last : Nat) :
    (subject.regrained granularity).passFolded literal direction position first last =
      subject.passFolded literal direction position first last := by
  have ahead : (subject.regrained granularity).codePointAhead = subject.codePointAhead := rfl
  fun_induction Subject.passFolded subject literal direction position first last with
  | case1 position first last nonempty wanted unit found same induction =>
      rw [passFolded, if_pos nonempty, ahead, found]
      exact (if_pos same).trans induction
  | case2 position first last nonempty wanted unit found different =>
      rw [passFolded, if_pos nonempty, ahead, found]
      exact if_neg different
  | case3 position first last nonempty missing =>
      rw [passFolded, if_pos nonempty, ahead, missing]
  | case4 position first last nonempty wanted unit found same induction =>
      rw [passFolded, if_pos nonempty, ahead, found]
      exact (if_pos same).trans induction
  | case5 position first last nonempty wanted unit found different =>
      rw [passFolded, if_pos nonempty, ahead, found]
      exact if_neg different
  | case6 position first last nonempty missing =>
      rw [passFolded, if_pos nonempty, ahead, missing]
  | case7 direction position first last empty =>
      rw [passFolded.eq_def, if_neg empty]

theorem passLiteral_regrained (position : Nat) (literal : Slice) (direction : Direction)
    (caseless : Bool) :
    (subject.regrained granularity).passLiteral position literal direction caseless =
      subject.passLiteral position literal direction caseless := by
  cases caseless with
  | false => rfl
  | true =>
      rw [passLiteral, passLiteral, passFolded_regrained]
      rfl

end Subject

end RegexMachine
