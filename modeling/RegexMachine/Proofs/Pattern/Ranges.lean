import RegexMachine.Pattern.Encoder
import RegexMachine.Proofs.Rune.Canonical

/-! # Sets of ranges

What a list of ranges asks of a set can be said without the set: a range brings its code
points and, where case does not count, what these fold to. The set that is gathered of
ordered ranges holds what they bring and is in normal form. -/

namespace RegexMachine

variable [CharacterData] {caseless : Bool} {rune : Rune} {range : Interval}
  {ranges : List Interval} {set : RuneSet}

namespace Interval

def codePoints (range : Interval) : List Rune :=
  List.range' range.first (min range.last Rune.last + 1 - range.first)

/-- Whether the range has the rune or, without case, a code point that folds to it. -/
def brings (range : Interval) (caseless : Bool) (rune : Rune) : Bool :=
  range.contains rune || caseless && range.codePoints.any (·.caseFold == rune)

omit [CharacterData] in
theorem mem_codePoints :
    rune ∈ range.codePoints ↔ range.contains rune = true ∧ rune ≤ Rune.last := by
  rw [codePoints, List.mem_range'_1, contains_iff]
  unfold Rune at *
  omega

theorem brings_iff : range.brings caseless rune = true ↔ range.contains rune = true ∨
    caseless = true ∧ ∃ member : Rune, range.contains member = true ∧ member ≤ Rune.last ∧
      member.caseFold = rune := by
  simp only [brings, Bool.or_eq_true, Bool.and_eq_true, List.any_eq_true, mem_codePoints,
    beq_iff_eq, and_assoc]

end Interval

namespace RuneSet

def Edit.ofRange (caseless : Bool) (range : Interval) : Edit :=
  if caseless then .pushFolded range.first range.last else .push range.first range.last

omit [CharacterData] in
theorem Edit.ordered_ofRange :
    (Edit.ofRange caseless range).Ordered ↔ range.first ≤ range.last := by
  cases caseless <;> rfl

theorem Edit.names_ofRange :
    (Edit.ofRange caseless range).Names Rune.caseFold rune ↔
      range.brings caseless rune = true := by
  rw [Interval.brings_iff, Interval.contains_iff]
  cases caseless with
  | false => simp [ofRange, Names]
  | true => simp [ofRange, Names, Interval.contains_iff, and_assoc]

/-- The set is the normal form of what ordered ranges bring. -/
structure Gathers (set : RuneSet) (ranges : List Interval) (caseless : Bool) : Prop where
  ordered : ∀ range ∈ ranges, range.first ≤ range.last
  /-- It is what pushing the ranges into the empty set and normalising once gives. -/
  optimised : ∃ built, edited Rune.caseFold (ranges.map (Edit.ofRange caseless)) = .ok built ∧
    set = built.normalize
  /-- It holds the code points that the ranges bring and no other rune. -/
  contains : ∀ rune, set.contains rune = true ↔
    rune ≤ Rune.last ∧ ∃ range ∈ ranges, range.brings caseless rune = true
  /-- Its intervals ascend with gaps between them. -/
  apart : set.intervals.toList.Pairwise fun left right =>
    left.first ≤ right.first ∧ left.last + 1 < right.first
  /-- Nothing else is in it, unless a range begins beyond the code space. -/
  canonical : (∀ range ∈ ranges, range.first ≤ Rune.last) → set.Canonical

theorem gathers_normalize {built : RuneSet}
    (builds : edited Rune.caseFold (ranges.map (Edit.ofRange caseless)) = .ok built) :
    built.normalize.Gathers ranges caseless where
  ordered range member := Edit.ordered_ofRange.mp
    (edited_returns_iff.mp ⟨built, builds⟩ _ (List.mem_map_of_mem member))
  optimised := ⟨built, builds, rfl⟩
  contains rune := by
    obtain ⟨settled, offers⟩ := settled_edited Rune.caseFold_le_last builds
    rw [contains_normalize settled, offers, Described]
    simp only [List.mem_map, exists_exists_and_eq_and, Edit.names_ofRange]
  apart := apart_normalize built
  canonical inside := by
    obtain ⟨settled, -⟩ := settled_edited Rune.caseFold_le_last builds
    rw [canonical_normalize_iff settled]
    intro first beyond begins
    obtain ⟨edit, member, begins⟩ :=
      (begins_edited Rune.caseFold_le_last builds beyond).1 begins
    obtain ⟨range, given, rfl⟩ := List.mem_map.mp member
    have same : range.first = first := by
      cases caseless <;> exact begins
    exact absurd (same ▸ inside range given) (not_le_of_gt beyond)

theorem Gathers.contains_eq (gathers : set.Gathers ranges caseless) (inside : rune ≤ Rune.last) :
    set.contains rune = ranges.any (·.brings caseless rune) := by
  rw [Bool.eq_iff_iff, gathers.contains, List.any_eq_true, and_iff_right inside]

end RuneSet

namespace Encoder

/-- Gathering is pushing one range after the other and normalising once. -/
theorem gatherRanges_eq (ranges : List Interval) (caseless : Bool) :
    gatherRanges ranges caseless =
      (RuneSet.edited Rune.caseFold (ranges.map (RuneSet.Edit.ofRange caseless))).map
        RuneSet.normalize := by
  have each (set : RuneSet) (range : Interval) :
      (RuneSet.Edit.ofRange caseless range).apply Rune.caseFold set =
        if caseless then set.pushFolded range.first range.last Rune.caseFold
        else set.push range.first range.last := by
    cases caseless <;> rfl
  rw [gatherRanges, RuneSet.edited, List.foldlM_map]
  simp only [each]
  rfl

theorem gathers_of_gatherRanges (gathered : gatherRanges ranges caseless = .ok set) :
    set.Gathers ranges caseless := by
  rw [gatherRanges_eq] at gathered
  cases builds : RuneSet.edited Rune.caseFold (ranges.map (RuneSet.Edit.ofRange caseless)) with
  | error fault =>
      rw [builds] at gathered
      cases gathered
  | ok built =>
      rw [builds] at gathered
      cases gathered
      exact RuneSet.gathers_normalize builds

theorem gatherRanges_of_ordered (ordered : ∀ range ∈ ranges, range.first ≤ range.last)
    (caseless : Bool) : ∃ set, gatherRanges ranges caseless = .ok set := by
  have edits : ∀ edit ∈ ranges.map (RuneSet.Edit.ofRange caseless), edit.Ordered := by
    rw [List.forall_mem_map]
    exact fun range member => RuneSet.Edit.ordered_ofRange.mpr (ordered range member)
  obtain ⟨built, builds⟩ : ∃ built,
      RuneSet.edited Rune.caseFold (ranges.map (RuneSet.Edit.ofRange caseless)) = .ok built :=
    RuneSet.edited_returns_iff.mpr edits
  exact ⟨built.normalize, by rw [gatherRanges_eq, builds]; rfl⟩

end Encoder

end RegexMachine
