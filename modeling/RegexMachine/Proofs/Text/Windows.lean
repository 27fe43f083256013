import RegexMachine.Proofs.Text.Limits
import RegexMachine.Proofs.Text.Reversal
import RegexMachine.Proofs.Text.Slices

/-! # The octets between the limits by themselves

A subject whose limits cut a window out of a longer text answers as the text in
the window does by itself, with every position so much further along. What lies
outside of the window is not read, even where a limit cuts through a sequence. -/

namespace RegexMachine

namespace Subject

/-- The part is the text between the limits of the whole, by itself. Both are
read by code points. -/
structure Frames (whole part : Subject) : Prop where
  octets : part.text.octets = whole.text.octets.extract whole.lower whole.upper
  lower : part.lower = 0
  upper : part.upper = part.text.size
  wholeCodePoints : whole.granularity = .codePoint
  partCodePoints : part.granularity = .codePoint

namespace Frames

variable {whole part : Subject} {direction : Direction} {position : Nat}

theorem holds (frames : whole.Frames part) :
    whole.text.octets.Holds whole.lower part.text.octets := by
  rw [frames.octets]
  exact whole.text.octets.holds_extract whole.lower whole.upper

theorem upper_eq (frames : whole.Frames part) : whole.upper = whole.lower + part.upper := by
  have ordered := whole.lower_le_upper
  have inside := whole.upper_le_size
  rw [SegmentedText.size] at inside
  rw [frames.upper, SegmentedText.size, frames.octets, Array.size_extract]
  omega

theorem covers (frames : whole.Frames part) (position : Nat) :
    whole.covers (whole.lower + position) = part.covers position := by
  rw [Bool.eq_iff_iff, covers_iff, covers_iff, frames.upper_eq, frames.lower]
  omega

theorem room (frames : whole.Frames part) (direction : Direction) (position : Nat) :
    whole.room (whole.lower + position) direction = part.room position direction := by
  cases direction with
  | forward =>
      simp only [Subject.room, frames.upper_eq]
      omega
  | reverse =>
      simp only [Subject.room, frames.lower]
      omega

/-! ## Units -/

theorem codePointAhead (frames : whole.Frames part) (direction : Direction) (position : Nat) :
    whole.codePointAhead (whole.lower + position) direction =
      (part.codePointAhead position direction).map (·.shift whole.lower) := by
  have inside : part.upper ≤ part.text.octets.size := part.upper_le_size
  simp only [Subject.codePointAhead, frames.covers]
  split
  · next covered =>
      rw [covers_iff] at covered
      cases direction with
      | forward =>
          simp only [frames.upper_eq, Nat.add_left_cancel_iff]
          split
          · rfl
          · rw [Octets.unitFrom_shift frames.holds inside]
            rfl
      | reverse =>
          have limit : whole.lower + position = whole.lower ↔ position = part.lower := by
            rw [frames.lower]
            omega
          simp only [limit]
          split
          · rfl
          · have unit := Octets.unitBefore_shift frames.holds
              (Nat.le_trans covered.2 inside) (Nat.zero_le position)
            rw [Nat.add_zero] at unit
            rw [unit, frames.lower]
            rfl
  · rfl

theorem landing_shift (unit : TextUnit) (distance : Nat) (direction : Direction) :
    (unit.shift distance).landing direction = distance + unit.landing direction := by
  cases direction <;> rfl

theorem passUnit (frames : whole.Frames part) (direction : Direction) (position : Nat)
    (test : Rune → Bool) :
    whole.passUnit (whole.lower + position) direction test =
      (part.passUnit position direction test).map (whole.lower + ·) := by
  rw [Subject.passUnit, Subject.passUnit, unitAhead_of_codePoints frames.wholeCodePoints,
    unitAhead_of_codePoints frames.partCodePoints, frames.codePointAhead]
  cases part.codePointAhead position direction with
  | none => rfl
  | some unit =>
      simp only [Option.map_some, Option.filter_some]
      by_cases passes : test unit.rune = true
      · simp [TextUnit.shift, passes, ← landing_shift]
      · simp [TextUnit.shift, passes]

theorem passUnits (frames : whole.Frames part) (direction : Direction) (count position : Nat) :
    whole.passUnits direction count (whole.lower + position) =
      (part.passUnits direction count position).map (whole.lower + ·) := by
  induction count generalizing position with
  | zero => rfl
  | succ count induction =>
      rw [Subject.passUnits, Subject.passUnits, unitAhead_of_codePoints frames.wholeCodePoints,
        unitAhead_of_codePoints frames.partCodePoints, frames.codePointAhead]
      cases part.codePointAhead position direction with
      | none => rfl
      | some unit =>
          simp only [Option.map_some, Option.bind_eq_bind, Option.bind_some, landing_shift]
          exact induction _

/-! ## Literals -/

theorem agrees (frames : whole.Frames part) (literal : Octets) {count start : Nat}
    (first : Nat) (inside : start + count ≤ part.upper) :
    whole.text.octets.agrees literal count (whole.lower + start) first =
      part.text.octets.agrees literal count start first := by
  have size : part.upper ≤ part.text.octets.size := part.upper_le_size
  have same : ∀ index < count, whole.text.octets[whole.lower + start + index]? =
      part.text.octets[start + index]? := by
    intro index below
    rw [Nat.add_assoc]
    exact frames.holds _ (by omega)
  rw [Bool.eq_iff_iff, Octets.agrees_iff, Octets.agrees_iff]
  exact forall₂_congr fun index below => by rw [same index below]

theorem passExact (frames : whole.Frames part) (position : Nat) (literal : Slice)
    (direction : Direction) :
    whole.passExact (whole.lower + position) literal direction =
      (part.passExact position literal direction).map (whole.lower + ·) := by
  simp only [Subject.passExact, frames.covers, frames.room]
  split
  · next fits =>
      rcases fits with ⟨covered, fits⟩
      rw [covers_iff] at covered
      cases direction with
      | forward =>
          simp only [Subject.room] at fits
          simp only [frames.agrees literal.octets literal.first
            (show position + literal.size ≤ part.upper by omega)]
          split
          · simp only [Option.map_some, Nat.add_assoc]
          · rfl
      | reverse =>
          simp only [Subject.room] at fits
          simp only [Nat.add_sub_assoc (show literal.size ≤ position by omega),
            frames.agrees literal.octets literal.first
              (show position - literal.size + literal.size ≤ part.upper by omega)]
          split <;> rfl
  · rfl

variable [CharacterData]

theorem passFolded (frames : whole.Frames part) (literal : Octets) (direction : Direction)
    (position first last : Nat) :
    whole.passFolded literal direction (whole.lower + position) first last =
      (part.passFolded literal direction position first last).map (whole.lower + ·) := by
  fun_induction Subject.passFolded part literal direction position first last with
  | case1 position first last nonempty wanted unit found same induction =>
      rw [Subject.passFolded, if_pos nonempty, frames.codePointAhead, found]
      exact (if_pos same).trans induction
  | case2 position first last nonempty wanted unit found different =>
      rw [Subject.passFolded, if_pos nonempty, frames.codePointAhead, found]
      exact if_neg different
  | case3 position first last nonempty missing =>
      rw [Subject.passFolded, if_pos nonempty, frames.codePointAhead, missing]
      rfl
  | case4 position first last nonempty wanted unit found same induction =>
      rw [Subject.passFolded, if_pos nonempty, frames.codePointAhead, found]
      exact (if_pos same).trans induction
  | case5 position first last nonempty wanted unit found different =>
      rw [Subject.passFolded, if_pos nonempty, frames.codePointAhead, found]
      exact if_neg different
  | case6 position first last nonempty missing =>
      rw [Subject.passFolded, if_pos nonempty, frames.codePointAhead, missing]
      rfl
  | case7 direction position first last empty =>
      rw [Subject.passFolded.eq_def, if_neg empty]
      rfl

theorem passLiteral (frames : whole.Frames part) (position : Nat) (literal : Slice)
    (direction : Direction) (caseless : Bool) :
    whole.passLiteral (whole.lower + position) literal direction caseless =
      (part.passLiteral position literal direction caseless).map (whole.lower + ·) := by
  cases caseless with
  | false => exact frames.passExact position literal direction
  | true =>
      simp only [Subject.passLiteral, frames.covers, if_true]
      split
      · exact frames.passFolded literal.octets direction position literal.first literal.last
      · rfl

theorem passLiteral_own (frames : whole.Frames part) (position : Nat) {first last : Nat}
    (ordered : first ≤ last) (inside : last ≤ part.upper) (direction : Direction)
    (caseless : Bool) :
    whole.passLiteral (whole.lower + position)
        ⟨whole.text.octets, whole.lower + first, whole.lower + last⟩ direction caseless =
      (part.passLiteral position ⟨part.text.octets, first, last⟩ direction caseless).map
        (whole.lower + ·) := by
  have size : part.upper ≤ part.text.octets.size := part.upper_le_size
  have wholeSize : whole.upper ≤ whole.text.octets.size := whole.upper_le_size
  have upper := frames.upper_eq
  have same : Slice.toOctets ⟨whole.text.octets, whole.lower + first, whole.lower + last⟩ =
      Slice.toOctets ⟨part.text.octets, first, last⟩ := by
    apply Array.ext_getElem?
    intro index
    simp only [Slice.toOctets, Array.getElem?_extract]
    split
    · next below => rw [Nat.add_assoc, frames.holds _ (by omega), if_pos (by omega)]
    · next beyond => rw [if_neg (by omega)]
  rw [passLiteral_toOctets (Nat.add_le_add_left ordered _) (by simp only; omega), same,
    frames.passLiteral, ← passLiteral_toOctets ordered (by simp only; omega)]

/-! ## Anchors -/

omit [CharacterData] in
theorem sees (frames : whole.Frames part) (position : Nat) (direction : Direction)
    (test : Rune → Bool) :
    whole.sees (whole.lower + position) direction test = part.sees position direction test := by
  rw [Subject.sees, Subject.sees, frames.codePointAhead, Option.any_map]
  rfl

theorem anchorHolds (frames : whole.Frames part) (position : Nat) (anchor : Anchor) :
    whole.anchorHolds (whole.lower + position) anchor = part.anchorHolds position anchor := by
  have start : (whole.lower + position == whole.lower) = (position == part.lower) := by
    rw [Bool.eq_iff_iff, beq_iff_eq, beq_iff_eq, frames.lower]
    omega
  have finish : (whole.lower + position == whole.upper) = (position == part.upper) := by
    rw [Bool.eq_iff_iff, beq_iff_eq, beq_iff_eq, frames.upper_eq]
    omega
  cases anchor <;>
    simp only [Subject.anchorHolds, Subject.atWordBoundary, frames.sees, start, finish]

end Frames

end Subject

end RegexMachine
