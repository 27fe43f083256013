import Mathlib.Data.List.Find
import RegexMachine.Proofs.Text.Units
import RegexMachine.Text.Subject

/-! # Reading a stretch in place

Reading between two positions of a text gives the same units, further along,
as reading the octets between them by themselves. A literal therefore matches
in the same way wherever it lies in its pool. -/

namespace RegexMachine

def TextUnit.shift (unit : TextUnit) (distance : Nat) : TextUnit :=
  ⟨unit.rune, distance + unit.first, distance + unit.last⟩

namespace Octets

def Holds (text : Octets) (offset : Nat) (part : Octets) : Prop :=
  ∀ index < part.size, text[offset + index]? = part[index]?

variable {text part : Octets} {offset first last : Nat}

theorem holds_extract (text : Octets) (first last : Nat) :
    text.Holds first (text.extract first last) := by
  intro index below
  rw [Array.size_extract] at below
  rw [Array.getElem?_extract, if_pos (by omega)]

theorem agrees_iff {other : Octets} {count position start : Nat} :
    text.agrees other count position start = true ↔
      ∀ index < count, text[position + index]? = other[start + index]? := by
  induction count generalizing position start with
  | zero => simp [agrees]
  | succ count induction =>
      rw [agrees, Bool.and_eq_true, beq_iff_eq, induction]
      constructor
      · intro holds index below
        rcases holds with ⟨here, rest⟩
        cases index with
        | zero => exact here
        | succ index =>
            have := rest index (by omega)
            rwa [Nat.add_right_comm, Nat.add_assoc, Nat.add_right_comm,
              Nat.add_assoc start] at this
      · intro all
        refine ⟨all 0 (by omega), fun index below => ?_⟩
        have := all (index + 1) (by omega)
        rwa [← Nat.add_assoc, ← Nat.add_assoc, Nat.add_right_comm,
          Nat.add_right_comm start] at this

theorem window_shift (holds : text.Holds offset part) (inside : last ≤ part.size) :
    text.window (offset + first) (offset + last) = part.window first last := by
  apply List.ext_getElem?
  intro index
  rw [window_getElem?, window_getElem?]
  by_cases within : first + index < last ∧ index < 4
  · rw [if_pos within, if_pos (by omega), Nat.add_assoc]
    exact holds (first + index) (by omega)
  · rw [if_neg within, if_neg (by omega)]

theorem unitFrom_shift (holds : text.Holds offset part) (inside : last ≤ part.size) :
    text.unitFrom (offset + first) (offset + last) =
      (part.unitFrom first last).shift offset := by
  unfold unitFrom
  rw [window_shift holds inside]
  split
  · simp only [TextUnit.shift, Nat.add_assoc]
  · simp only [strayFrom, TextUnit.shift, Nat.add_lt_add_iff_left]
    split <;> rfl

theorem leadBefore?_shift (holds : text.Holds offset part) (inside : last ≤ part.size)
    (ordered : first ≤ last) :
    text.leadBefore? (offset + first) (offset + last) = part.leadBefore? first last := by
  apply List.find?_congr
  intro distance member
  have positive : 0 < distance := by
    simp only [List.mem_cons, List.not_mem_nil, or_false] at member
    omega
  rw [Nat.add_sub_add_left]
  by_cases within : distance ≤ last - first
  · rw [Nat.add_sub_assoc (by omega), holds (last - distance) (by omega)]
  · simp [within]

theorem unitBefore_shift (holds : text.Holds offset part) (inside : last ≤ part.size)
    (ordered : first ≤ last) :
    text.unitBefore (offset + first) (offset + last) =
      (part.unitBefore first last).shift offset := by
  have stray : strayBefore (offset + first) (offset + last) =
      (strayBefore first last).shift offset := by
    simp only [strayBefore, TextUnit.shift, Nat.add_lt_add_iff_left]
    split
    · rw [Nat.add_sub_assoc (by omega)]
    · rfl
  unfold unitBefore
  rw [leadBefore?_shift holds inside ordered]
  split
  · exact stray
  · next distance found =>
      have bounds := leadBefore?_bounds found
      rw [Nat.add_sub_assoc (by omega), unitFrom_shift holds inside, stray]
      simp only [TextUnit.shift, Nat.add_left_cancel_iff]
      split <;> rfl

end Octets

/-! ## Literals -/

namespace Subject

variable {subject : Subject} {literal part : Octets} {offset : Nat}

variable [CharacterData]

theorem passFolded_shift (subject : Subject) (holds : literal.Holds offset part)
    (direction : Direction) (position first last : Nat) (inside : last ≤ part.size) :
    subject.passFolded literal direction position (offset + first) (offset + last) =
      subject.passFolded part direction position first last := by
  fun_induction passFolded subject part direction position first last with
  | case1 position first last nonempty wanted unit found same induction =>
      rw [passFolded, if_pos (by omega)]
      simp only [Octets.unitFrom_shift holds inside, found]
      exact (if_pos same).trans (induction inside)
  | case2 position first last nonempty wanted unit found different =>
      rw [passFolded, if_pos (by omega)]
      simp only [Octets.unitFrom_shift holds inside, found]
      exact if_neg different
  | case3 position first last nonempty missing =>
      rw [passFolded, if_pos (by omega)]
      simp only [missing]
  | case4 position first last nonempty wanted unit found same induction =>
      have below : wanted.first < last := part.unitBefore_first_lt nonempty
      rw [passFolded, if_pos (by omega)]
      simp only [Octets.unitBefore_shift holds inside (Nat.le_of_lt nonempty), found]
      exact (if_pos same).trans (induction (by omega))
  | case5 position first last nonempty wanted unit found different =>
      rw [passFolded, if_pos (by omega)]
      simp only [Octets.unitBefore_shift holds inside (Nat.le_of_lt nonempty), found]
      exact if_neg different
  | case6 position first last nonempty missing =>
      rw [passFolded, if_pos (by omega)]
      simp only [missing]
  | case7 direction position first last empty =>
      rw [passFolded.eq_def, if_neg (by omega)]

omit [CharacterData] in
theorem passExact_shift (subject : Subject) (holds : literal.Holds offset part)
    (direction : Direction) (position : Nat) :
    subject.passExact position ⟨literal, offset, offset + part.size⟩ direction =
      subject.passExact position part.all direction := by
  have size : (⟨literal, offset, offset + part.size⟩ : Slice).size = part.size :=
    Nat.add_sub_cancel_left offset part.size
  have agrees : ∀ start, subject.text.octets.agrees literal part.size start offset =
      subject.text.octets.agrees part part.size start 0 := by
    intro start
    rw [Bool.eq_iff_iff, Octets.agrees_iff, Octets.agrees_iff]
    constructor
    · intro same index below
      rw [same index below, holds index below, Nat.zero_add]
    · intro same index below
      rw [same index below, holds index below, Nat.zero_add]
  simp only [passExact, size, Octets.all, agrees]
  rfl

/-- Of a literal only its octets count, not where they lie. -/
theorem passLiteral_toOctets {literal : Slice} (ordered : literal.first ≤ literal.last)
    (inside : literal.last ≤ literal.octets.size) (position : Nat) (direction : Direction)
    (caseless : Bool) :
    subject.passLiteral position literal direction caseless =
      subject.passLiteral position literal.toOctets.all direction caseless := by
  rcases literal with ⟨octets, first, last⟩
  have holds := octets.holds_extract first last
  have size : (octets.extract first last).size = last - first := by
    rw [Array.size_extract]
    simp only at ordered inside
    omega
  have ends : first + (octets.extract first last).size = last := by
    rw [size]
    exact Nat.add_sub_of_le ordered
  cases caseless with
  | false =>
      have same := passExact_shift subject holds direction position
      rw [ends] at same
      exact same
  | true =>
      have same := passFolded_shift subject holds direction position 0 _
        (Nat.le_refl _)
      rw [ends, Nat.add_zero] at same
      simp only [passLiteral, if_true, same]
      rfl

end Subject

end RegexMachine
