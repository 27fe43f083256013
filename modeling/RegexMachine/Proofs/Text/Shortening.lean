import RegexMachine.Proofs.Text.Reversal

/-! # A nearer upper limit

What is read looking back from a position does not depend on what follows it, so
it is the same when the upper limit is moved down, to that position at the
nearest. A cut that stays within the limits remains a cut. -/

namespace RegexMachine

namespace Octets

variable {text : Octets} {first last limit position : Nat}

/-- The cuts up to a cut are the cuts of the range that ends there. -/
theorem isCut_shorter_iff (limited : text.IsCut first last limit) :
    text.IsCut first limit position ↔ text.IsCut first last position ∧ position ≤ limit := by
  constructor
  · intro cut
    refine ⟨⟨limited.1, ?_⟩, cut.le_last⟩
    obtain ⟨-, path⟩ := cut
    induction path with
    | refl => exact .refl
    | tail _ step induction =>
        obtain ⟨inside, rfl⟩ := step
        have earlier : text.IsCut first last _ := ⟨limited.1, induction⟩
        have ends := earlier.unitFrom_last_le_of_lt limited inside
        rw [unitFrom_eq_of_last_le inside limited.le_last ends]
        have within := limited.le_last
        exact induction.tail ⟨by omega, rfl⟩
  · intro cut
    obtain ⟨⟨-, path⟩, within⟩ := cut
    refine ⟨limited.first_le, ?_⟩
    induction path with
    | refl => exact .refl
    | tail _ step induction =>
        have before := step.lt
        obtain ⟨-, rfl⟩ := step
        refine (induction (by omega)).tail ⟨by omega, ?_⟩
        rw [unitFrom_eq_of_last_le (by omega) limited.le_last within]

end Octets

namespace Subject

variable {subject : Subject} {limit position landing : Nat}

def upTo (subject : Subject) (covered : subject.covers limit = true) : Subject :=
  { subject with
    upper := limit
    lower_le_upper := (covers_iff.mp covered).1
    upper_le_size := Nat.le_trans (covers_iff.mp covered).2 subject.upper_le_size }

theorem within_upTo (covered : subject.covers limit = true) :
    Subject.within subject.text subject.lower limit subject.granularity =
      .ok (subject.upTo covered) :=
  dif_pos ⟨(subject.upTo covered).lower_le_upper, (subject.upTo covered).upper_le_size⟩

section

variable (covered : subject.covers limit = true)

theorem isCut_upTo_iff (cut : subject.IsCut limit) :
    (subject.upTo cut.covers).IsCut position ↔ subject.IsCut position ∧ position ≤ limit :=
  Octets.isCut_shorter_iff cut

theorem covers_of_upTo (inside : (subject.upTo covered).covers position = true) :
    subject.covers position = true := by
  rw [covers_iff] at covered inside ⊢
  exact ⟨inside.1, Nat.le_trans inside.2 covered.2⟩

theorem codePointAhead_upTo (inside : (subject.upTo covered).covers position = true) :
    (subject.upTo covered).codePointAhead position .reverse =
      subject.codePointAhead position .reverse := by
  rw [codePointAhead, codePointAhead, if_pos inside, if_pos (covers_of_upTo covered inside)]
  rfl

theorem passExact_upTo (literal : Slice)
    (inside : (subject.upTo covered).covers position = true) :
    (subject.upTo covered).passExact position literal .reverse =
      subject.passExact position literal .reverse := by
  rw [passExact, passExact, inside, covers_of_upTo covered inside]
  rfl

section

variable (codePoints : subject.granularity = .codePoint)
include codePoints

theorem unitAhead_upTo (inside : (subject.upTo covered).covers position = true) :
    (subject.upTo covered).unitAhead position .reverse =
      subject.unitAhead position .reverse := by
  have same : (subject.upTo covered).granularity = .codePoint := codePoints
  rw [unitAhead_of_codePoints same, unitAhead_of_codePoints codePoints]
  exact codePointAhead_upTo covered inside

theorem passUnit_upTo (test : Rune → Bool)
    (inside : (subject.upTo covered).covers position = true) :
    (subject.upTo covered).passUnit position .reverse test =
      subject.passUnit position .reverse test := by
  rw [passUnit, passUnit, unitAhead_upTo covered codePoints inside]

theorem passUnits_upTo (count : Nat)
    (inside : (subject.upTo covered).covers position = true) :
    (subject.upTo covered).passUnits .reverse count position =
      subject.passUnits .reverse count position := by
  induction count generalizing position with
  | zero => rfl
  | succ count induction =>
      rw [passUnits, passUnits, ← unitAhead_upTo covered codePoints inside]
      cases found : (subject.upTo covered).unitAhead position .reverse with
      | none => rfl
      | some unit => exact induction ((unitAhead_onward found).covers inside)

end

variable [CharacterData]

theorem passFolded_upTo (literal : Octets) (first : Nat) {last : Nat}
    (inside : (subject.upTo covered).covers position = true) :
    (subject.upTo covered).passFolded literal .reverse position first last =
      subject.passFolded literal .reverse position first last := by
  induction last using Nat.strongRecOn generalizing position with
  | ind last induction =>
      rw [passFolded, passFolded]
      by_cases nonempty : first < last
      · rw [if_pos nonempty, if_pos nonempty, ← codePointAhead_upTo covered inside]
        cases found : (subject.upTo covered).codePointAhead position .reverse with
        | none => rfl
        | some unit =>
            have onward := (codePointAhead_onward found).covers inside
            have shorter := literal.unitBefore_first_lt nonempty
            exact ite_congr rfl (fun _ => induction _ shorter onward) fun _ => rfl
      · rw [if_neg nonempty, if_neg nonempty]

theorem passLiteral_upTo (literal : Slice) (caseless : Bool)
    (inside : (subject.upTo covered).covers position = true) :
    (subject.upTo covered).passLiteral position literal .reverse caseless =
      subject.passLiteral position literal .reverse caseless := by
  cases caseless with
  | false => exact passExact_upTo covered literal inside
  | true =>
      rw [passLiteral, passLiteral, inside, covers_of_upTo covered inside]
      exact passFolded_upTo covered literal.octets literal.first inside

end

end Subject

end RegexMachine
