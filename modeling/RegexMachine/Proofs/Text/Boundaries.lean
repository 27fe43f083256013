import RegexMachine.Proofs.Text.Reversal
import RegexMachine.Proofs.Text.Segmentation

/-! # Boundaries of units

Between two limits the units begin and end at the same positions whichever way they are
read. Among code points these are the cuts of the range, among clusters the boundaries of
the text that lie in it. From one of them any number of units can be passed there and
back. -/

namespace RegexMachine

/-! ## Units of a range -/

theorem Octets.mem_units_first {text : Octets} {first last position : Nat}
    (ordered : first ≤ last) :
    position ∈ (text.units first last).map (·.first) ↔
      text.IsCut first last position ∧ position < last := by
  fun_induction units text first last with
  | case1 first nonempty induction =>
      have within := text.unitFrom_last_le nonempty
      rw [List.map_cons, List.mem_cons, unitFrom_first, induction within]
      constructor
      · rintro (rfl | ⟨⟨-, path⟩, inside⟩)
        · exact ⟨.opening ordered, nonempty⟩
        · exact ⟨⟨ordered, path.head ⟨nonempty, rfl⟩⟩, inside⟩
      · rintro ⟨⟨-, path⟩, inside⟩
        cases path using Relation.ReflTransGen.head_induction_on with
        | refl => exact .inl rfl
        | head step path =>
            rcases step with ⟨-, rfl⟩
            exact .inr ⟨⟨within, path⟩, inside⟩
  | case2 first ended =>
      simp only [List.map_nil, List.not_mem_nil, false_iff]
      rintro ⟨cut, inside⟩
      have := cut.first_le
      omega

namespace Subject

variable {subject : Subject} {position : Nat}

def unitBoundaries (subject : Subject) : List Nat :=
  match subject.granularity with
  | .codePoint =>
      (subject.text.octets.units subject.lower subject.upper).map (·.first) ++ [subject.upper]
  | .grapheme => subject.text.boundaries.positions.toList.filter subject.covers

theorem mem_unitBoundaries_of_codePoints (codePoints : subject.granularity = .codePoint) :
    position ∈ subject.unitBoundaries ↔ subject.IsCut position := by
  rw [unitBoundaries, codePoints]
  simp only [List.mem_append, List.mem_singleton,
    Octets.mem_units_first subject.lower_le_upper]
  constructor
  · rintro (⟨cut, -⟩ | rfl)
    · exact cut
    · exact subject.isCut_upper
  · intro cut
    rcases Nat.lt_or_ge position subject.upper with inside | ended
    · exact .inl ⟨cut, inside⟩
    · exact .inr (Nat.le_antisymm cut.le_last ended)

theorem mem_unitBoundaries_of_clusters (clusters : subject.granularity = .grapheme) :
    position ∈ subject.unitBoundaries ↔
      subject.covers position = true ∧ subject.isBoundary position = true := by
  rw [unitBoundaries, clusters]
  rw [List.mem_filter, Array.mem_toList_iff, and_comm, ← Boundaries.contains_iff]
  rfl

theorem covers_of_mem_unitBoundaries (member : position ∈ subject.unitBoundaries) :
    subject.covers position = true := by
  cases kind : subject.granularity with
  | codePoint => exact ((mem_unitBoundaries_of_codePoints kind).mp member).covers
  | grapheme => exact ((mem_unitBoundaries_of_clusters kind).mp member).1

theorem pairwise_unitBoundaries (subject : Subject) :
    subject.unitBoundaries.Pairwise (· < ·) := by
  rw [unitBoundaries]
  split
  · have ordered := subject.lower_le_upper
    refine List.pairwise_append.mpr
      ⟨subject.text.octets.units_ascend _ _, List.pairwise_singleton _ _, ?_⟩
    · intro first member last final
      rw [List.mem_singleton.mp final]
      exact ((Octets.mem_units_first ordered).mp member).2
  · exact subject.text.boundaries.ascend.filter _

/-! ## There and back -/

theorem clusterAhead_back {direction : Direction} {unit : TextUnit}
    (boundary : subject.isBoundary position = true)
    (found : subject.clusterAhead position direction = some unit) :
    subject.isBoundary (unit.landing direction) = true ∧
      unit.landing direction.opposite = position ∧
        subject.clusterAhead (unit.landing direction) direction.opposite = some unit := by
  have onward := clusterAhead_onward found
  obtain ⟨covered, shape⟩ := clusterAhead_eq_some found
  have within := covers_iff.mp covered
  cases direction with
  | forward =>
      obtain ⟨last, next, rfl⟩ := shape
      obtain ⟨ahead, -, ends, nearest⟩ := SegmentedText.boundaryAfter?_eq_some_iff.mp next
      have previous : subject.text.boundaryBefore? subject.lower last = some position :=
        SegmentedText.boundaryBefore?_eq_some_iff.mpr ⟨within.1, ahead, boundary, nearest⟩
      have landed : subject.covers last = true := onward.covers covered
      refine ⟨ends, rfl, ?_⟩
      change subject.clusterAhead last .reverse = _
      simp only [clusterAhead, landed, previous, if_true, Option.map_some]
  | reverse =>
      obtain ⟨first, previous, rfl⟩ := shape
      obtain ⟨-, behind, begins, nearest⟩ :=
        SegmentedText.boundaryBefore?_eq_some_iff.mp previous
      have next : subject.text.boundaryAfter? subject.upper first = some position :=
        SegmentedText.boundaryAfter?_eq_some_iff.mpr ⟨behind, within.2, boundary, nearest⟩
      have landed : subject.covers first = true := onward.covers covered
      refine ⟨begins, rfl, ?_⟩
      change subject.clusterAhead first .forward = _
      simp only [clusterAhead, landed, next, if_true, Option.map_some]

theorem retraces_unitBoundaries (subject : Subject) :
    subject.Retraces (· ∈ subject.unitBoundaries) := by
  intro position direction unit member found
  cases kind : subject.granularity with
  | codePoint =>
      simp only [mem_unitBoundaries_of_codePoints kind] at member ⊢
      exact retraces_cuts kind member found
  | grapheme =>
      have covered := (unitAhead_onward found).covers (covers_of_unitAhead found)
      simp only [mem_unitBoundaries_of_clusters kind, unitAhead, kind] at member found ⊢
      obtain ⟨landed, back, again⟩ := clusterAhead_back member.2 found
      exact ⟨⟨covered, landed⟩, back, again⟩

/-- From a boundary of a unit every step over a unit leads to another boundary, and the
step in the opposite direction leads back over the same unit. So steps over any number of
units are taken back by as many in the opposite direction. They can be taken in two goes,
and that from anywhere. -/
theorem unitAhead_retraced (subject : Subject) (direction : Direction) :
    (∀ position ∈ subject.unitBoundaries, ∀ unit,
      subject.unitAhead position direction = some unit →
        unit.landing direction ∈ subject.unitBoundaries ∧
          unit.landing direction.opposite = position ∧
            subject.unitAhead (unit.landing direction) direction.opposite = some unit) ∧
    (∀ position ∈ subject.unitBoundaries, ∀ count landing,
      subject.passUnits direction count position = some landing →
        subject.passUnits direction.opposite count landing = some position) ∧
    ∀ position first more, subject.passUnits direction (first + more) position =
      (subject.passUnits direction first position).bind (subject.passUnits direction more) := by
  have retraces := subject.retraces_unitBoundaries
  refine ⟨fun position member unit found => retraces member found, ?_, ?_⟩
  · intro position member count landing passes
    exact (retraces.passUnits member passes).2
  · exact fun position first more => passUnits_add first more

/-- An accented letter between two others, without the first of them. -/
def accentedLetter : Subject :=
  ⟨.segment #[0x62, 0x61, 0xCC, 0x81, 0x62] (some ⟨#[0, 1, 4, 5], by decide⟩), 1, 5, .grapheme,
    by decide, by decide⟩

theorem accentedLetter_retraced :
    accentedLetter.unitAhead 1 .forward = some ⟨0x61, 1, 4⟩ ∧
      accentedLetter.unitAhead 4 .reverse = some ⟨0x61, 1, 4⟩ ∧
      accentedLetter.passUnits .reverse 2 5 = some 1 := by
  have boundary : 1 ∈ accentedLetter.unitBoundaries := by decide +kernel
  have ahead : accentedLetter.unitAhead 1 .forward = some ⟨0x61, 1, 4⟩ := by decide +kernel
  have passes : accentedLetter.passUnits .forward 2 1 = some 5 := by decide +kernel
  have retraced := unitAhead_retraced accentedLetter .forward
  exact ⟨ahead, (retraced.1 1 boundary _ ahead).2.2, retraced.2.1 1 boundary 2 5 passes⟩

end Subject

end RegexMachine
