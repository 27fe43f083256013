import RegexMachine.Proofs.Text.Units
import RegexMachine.Rune.Repertoire
import RegexMachine.Text.Subject

/-! # Staying within the limits

Whatever is passed over, the position behind it lies within the limits of the
subject, and on the side to which the direction leads. From outside of the limits
nothing is passed over, except no unit at all. -/

namespace RegexMachine

namespace Subject

variable {subject : Subject} {direction : Direction} {position middle landing : Nat}

theorem covers_iff :
    subject.covers position = true ↔
      subject.lower ≤ position ∧ position ≤ subject.upper := by
  simp [covers]

def Onward (subject : Subject) (direction : Direction) (position landing : Nat) : Prop :=
  match direction with
  | .forward => position ≤ landing ∧ landing ≤ subject.upper
  | .reverse => subject.lower ≤ landing ∧ landing ≤ position

namespace Onward

theorem covers (onward : subject.Onward direction position landing)
    (covered : subject.covers position = true) : subject.covers landing = true := by
  rw [covers_iff] at covered ⊢
  cases direction <;> simp only [Onward] at onward <;> omega

theorem refl (direction : Direction) (covered : subject.covers position = true) :
    subject.Onward direction position position := by
  rw [covers_iff] at covered
  cases direction <;> simp only [Onward] <;> omega

theorem trans (first : subject.Onward direction position middle)
    (second : subject.Onward direction middle landing) :
    subject.Onward direction position landing := by
  cases direction <;> simp only [Onward] at first second ⊢ <;> omega

end Onward

/-! ## Units -/

theorem codePointAhead_eq_some {unit : TextUnit}
    (found : subject.codePointAhead position direction = some unit) :
    subject.covers position = true ∧
      match direction with
      | .forward => position < subject.upper ∧
          unit = subject.text.octets.unitFrom position subject.upper
      | .reverse => subject.lower < position ∧
          unit = subject.text.octets.unitBefore subject.lower position := by
  unfold codePointAhead at found
  split at found
  · next covered =>
      refine ⟨covered, ?_⟩
      rw [covers_iff] at covered
      cases direction <;> simp only [Option.ite_none_left_eq_some, Option.some.injEq] at found ⊢
      · exact ⟨by omega, found.2.symm⟩
      · exact ⟨by omega, found.2.symm⟩
  · cases found

theorem codePointAhead_onward {unit : TextUnit}
    (found : subject.codePointAhead position direction = some unit) :
    subject.Onward direction position (unit.landing direction) := by
  rcases codePointAhead_eq_some found with ⟨covered, shape⟩
  rw [covers_iff] at covered
  cases direction with
  | forward =>
      rcases shape with ⟨inside, rfl⟩
      have := subject.text.octets.lt_unitFrom_last inside
      exact ⟨by simp only [TextUnit.landing]; omega,
        subject.text.octets.unitFrom_last_le inside⟩
  | reverse =>
      rcases shape with ⟨inside, rfl⟩
      have := subject.text.octets.unitBefore_first_lt inside
      exact ⟨subject.text.octets.le_unitBefore_first covered.1,
        by simp only [TextUnit.landing]; omega⟩

theorem clusterAhead_eq_some {unit : TextUnit}
    (found : subject.clusterAhead position direction = some unit) :
    subject.covers position = true ∧
      match direction with
      | .forward => ∃ last, subject.text.boundaryAfter? subject.upper position = some last ∧
          unit = subject.clusterBetween position last
      | .reverse => ∃ first,
          subject.text.boundaryBefore? subject.lower position = some first ∧
            unit = subject.clusterBetween first position := by
  unfold clusterAhead at found
  split at found
  · next covered =>
      refine ⟨covered, ?_⟩
      cases direction <;>
        simp only [Option.map_eq_some_iff] at found ⊢ <;>
        obtain ⟨other, next, rfl⟩ := found <;>
        exact ⟨other, next, rfl⟩
  · cases found

theorem clusterAhead_onward {unit : TextUnit}
    (found : subject.clusterAhead position direction = some unit) :
    subject.Onward direction position (unit.landing direction) := by
  rcases clusterAhead_eq_some found with ⟨covered, shape⟩
  cases direction with
  | forward =>
      rcases shape with ⟨last, next, rfl⟩
      obtain ⟨ahead, within, -⟩ := SegmentedText.boundaryAfter?_eq_some_iff.mp next
      exact ⟨by simp only [TextUnit.landing, clusterBetween]; omega, within⟩
  | reverse =>
      rcases shape with ⟨first, previous, rfl⟩
      obtain ⟨within, behind, -⟩ := SegmentedText.boundaryBefore?_eq_some_iff.mp previous
      exact ⟨within, by simp only [TextUnit.landing, clusterBetween]; omega⟩

theorem unitAhead_onward {unit : TextUnit}
    (found : subject.unitAhead position direction = some unit) :
    subject.Onward direction position (unit.landing direction) := by
  unfold unitAhead at found
  split at found
  · exact codePointAhead_onward found
  · exact clusterAhead_onward found

theorem passUnit_onward {test : Rune → Bool}
    (passes : subject.passUnit position direction test = some landing) :
    subject.Onward direction position landing := by
  simp only [passUnit, Option.map_eq_some_iff, Option.filter_eq_some_iff] at passes
  rcases passes with ⟨unit, ⟨found, -⟩, rfl⟩
  exact unitAhead_onward found

theorem passUnits_onward {count : Nat} (covered : subject.covers position = true)
    (passes : subject.passUnits direction count position = some landing) :
    subject.Onward direction position landing := by
  induction count generalizing position with
  | zero =>
      cases passes
      exact .refl direction covered
  | succ count induction =>
      simp only [passUnits, Option.bind_eq_bind, Option.bind_eq_some_iff] at passes
      rcases passes with ⟨unit, found, rest⟩
      have onward := unitAhead_onward found
      exact onward.trans (induction (onward.covers covered) rest)

/-! ## Literals -/

theorem passExact_onward {literal : Slice}
    (passes : subject.passExact position literal direction = some landing) :
    subject.Onward direction position landing := by
  unfold passExact at passes
  split at passes
  · next fits =>
      rcases fits with ⟨covered, fits⟩
      rw [covers_iff] at covered
      cases direction <;> simp only [Option.ite_none_right_eq_some, Option.some.injEq] at passes
      · rcases passes with ⟨-, rfl⟩
        simp only [room] at fits
        exact ⟨by omega, by omega⟩
      · rcases passes with ⟨-, rfl⟩
        simp only [room] at fits
        exact ⟨by omega, by omega⟩
  · cases passes

section

variable [CharacterData]

theorem passFolded_onward {literal : Octets} {first last : Nat}
    (covered : subject.covers position = true)
    (passes : subject.passFolded literal direction position first last = some landing) :
    subject.Onward direction position landing := by
  fun_induction passFolded subject literal direction position first last with
  | case1 position first last inside wanted unit found same induction =>
      have onward := codePointAhead_onward found
      exact onward.trans (induction (onward.covers covered) passes)
  | case2 => cases passes
  | case3 => cases passes
  | case4 position first last inside wanted unit found same induction =>
      have onward := codePointAhead_onward found
      exact onward.trans (induction (onward.covers covered) passes)
  | case5 => cases passes
  | case6 => cases passes
  | case7 direction position =>
      cases passes
      exact .refl direction covered

theorem passLiteral_onward {literal : Slice} {caseless : Bool}
    (passes : subject.passLiteral position literal direction caseless = some landing) :
    subject.Onward direction position landing := by
  unfold passLiteral at passes
  split at passes
  · split at passes
    · next covered => exact passFolded_onward covered passes
    · cases passes
  · exact passExact_onward passes

end

/-! ## Answers -/

/-- An answer is given from between the limits only. It lies between them as well, on the
side to which the direction leads. -/
def Keeps (subject : Subject) (position : Nat) (direction : Direction)
    (answer : Option Nat) : Prop :=
  ∀ landing, answer = some landing → subject.covers position = true ∧
    subject.covers landing = true ∧ subject.Onward direction position landing

theorem keeps_of_onward {answer : Option Nat}
    (within : ∀ landing, answer = some landing → subject.covers position = true)
    (onward : ∀ landing, answer = some landing → subject.Onward direction position landing) :
    subject.Keeps position direction answer := by
  intro landing answers
  have covered := within landing answers
  exact ⟨covered, (onward landing answers).covers covered, onward landing answers⟩

theorem keeps_codePointAhead (subject : Subject) (position : Nat) (direction : Direction) :
    subject.Keeps position direction
      ((subject.codePointAhead position direction).map (·.landing direction)) := by
  apply keeps_of_onward
  · intro landing answers
    obtain ⟨unit, found, -⟩ := Option.map_eq_some_iff.mp answers
    exact (codePointAhead_eq_some found).1
  · intro landing answers
    obtain ⟨unit, found, rfl⟩ := Option.map_eq_some_iff.mp answers
    exact codePointAhead_onward found

theorem covers_of_unitAhead {unit : TextUnit}
    (found : subject.unitAhead position direction = some unit) :
    subject.covers position = true := by
  unfold unitAhead at found
  split at found
  · exact (codePointAhead_eq_some found).1
  · exact (clusterAhead_eq_some found).1

theorem keeps_unitAhead (subject : Subject) (position : Nat) (direction : Direction) :
    subject.Keeps position direction
      ((subject.unitAhead position direction).map (·.landing direction)) := by
  apply keeps_of_onward
  · intro landing answers
    obtain ⟨unit, found, -⟩ := Option.map_eq_some_iff.mp answers
    exact covers_of_unitAhead found
  · intro landing answers
    obtain ⟨unit, found, rfl⟩ := Option.map_eq_some_iff.mp answers
    exact unitAhead_onward found

theorem keeps_passUnits_iff {count : Nat} :
    subject.Keeps position direction (subject.passUnits direction count position) ↔
      (subject.covers position = false → count ≠ 0) := by
  constructor
  · rintro keeps outside rfl
    have inside := (keeps position rfl).1
    rw [outside] at inside
    cases inside
  · intro given
    have within : ∀ landing, subject.passUnits direction count position = some landing →
        subject.covers position = true := by
      intro landing passes
      by_contra outside
      obtain ⟨count, rfl⟩ := Nat.exists_eq_succ_of_ne_zero
        (given (Bool.eq_false_iff.mpr outside))
      rw [passUnits, Option.bind_eq_bind, Option.bind_eq_some_iff] at passes
      obtain ⟨unit, found, -⟩ := passes
      exact outside (covers_of_unitAhead found)
    exact keeps_of_onward within fun landing passes =>
      passUnits_onward (within landing passes) passes

section

variable [CharacterData]

theorem keeps_passLiteral (subject : Subject) (position : Nat) (direction : Direction)
    (literal : Slice) (caseless : Bool) :
    subject.Keeps position direction
      (subject.passLiteral position literal direction caseless) := by
  apply keeps_of_onward
  · intro landing passes
    cases caseless with
    | false =>
        simp only [passLiteral, passExact, Bool.false_eq_true, if_false,
          Option.ite_none_right_eq_some] at passes
        exact passes.1.1
    | true =>
        simp only [passLiteral, if_true, Option.ite_none_right_eq_some] at passes
        exact passes.1
  · exact fun landing => passLiteral_onward

/-- Stepping over a code point, a unit or a literal answers only positions between the
limits, on the side to which the direction leads, and nothing from outside of the limits.
Stepping over a number of units keeps to that as well, just if the number is not zero or
the position is between the limits. -/
theorem answers_keep_iff (subject : Subject) (position : Nat) (direction : Direction) :
    subject.Keeps position direction
        ((subject.codePointAhead position direction).map (·.landing direction)) ∧
      subject.Keeps position direction
        ((subject.unitAhead position direction).map (·.landing direction)) ∧
      (∀ literal caseless, subject.Keeps position direction
        (subject.passLiteral position literal direction caseless)) ∧
      ∀ count, subject.Keeps position direction
          (subject.passUnits direction count position) ↔
        (subject.covers position = false → count ≠ 0) :=
  ⟨subject.keeps_codePointAhead position direction, subject.keeps_unitAhead position direction,
    subject.keeps_passLiteral position direction, fun _ => keeps_passUnits_iff⟩

def middleLetter : Subject :=
  ⟨.byUnits #[0x61, 0x62, 0x63], 1, 2, .codePoint, by decide, by decide⟩

end

open scoped Repertoire in
/-- No unit is passed from behind the upper limit, and that position is the answer. -/
theorem middleLetter_strays :
    middleLetter.passUnits .forward 0 3 = some 3 ∧ middleLetter.covers 3 = false ∧
      ¬middleLetter.Keeps 3 .forward (middleLetter.passUnits .forward 0 3) :=
  ⟨rfl, rfl, fun keeps => ((answers_keep_iff middleLetter 3 .forward).2.2.2 0).mp keeps rfl rfl⟩

end Subject

end RegexMachine
