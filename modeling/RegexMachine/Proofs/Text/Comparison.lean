import RegexMachine.Proofs.Text.Reversal
import RegexMachine.Proofs.Text.Segmentation
import RegexMachine.Rune.Repertoire

/-! # Comparing literals

Without case a literal counts only as the list of the foldings of its units. Such a list
is passed between two cuts just if it is the list of the text between them, and so in
either direction. A literal whose octets are compared is passed in either direction from
anywhere. -/

namespace RegexMachine

namespace Octets

variable {text : Octets} {first last position : Nat}

variable [CharacterData]

def foldings (text : Octets) (first last : Nat) : List Rune :=
  (text.units first last).map (·.rune.caseFold)

def foldingsAlong (text : Octets) : Direction → Nat → Nat → List Rune
  | .forward, first, last => text.foldings first last
  | .reverse, first, last => (text.foldings first last).reverse

theorem foldings_of_empty (text : Octets) (empty : ¬first < last) :
    text.foldings first last = [] := by
  rw [foldings, units, if_neg empty, List.map_nil]

theorem foldings_eq_nil_iff : text.foldings first last = [] ↔ ¬first < last := by
  refine ⟨fun none nonempty => ?_, text.foldings_of_empty⟩
  rw [foldings, units_cons text nonempty] at none
  cases none

theorem foldingsAlong_forward (text : Octets) (nonempty : first < last) :
    text.foldingsAlong .forward first last =
      (text.unitFrom first last).rune.caseFold ::
        text.foldingsAlong .forward (text.unitFrom first last).last last := by
  rw [foldingsAlong, foldings, units_cons text nonempty]
  rfl

theorem foldingsAlong_reverse (text : Octets) (nonempty : first < last) :
    text.foldingsAlong .reverse first last =
      (text.unitBefore first last).rune.caseFold ::
        text.foldingsAlong .reverse first (text.unitBefore first last).first := by
  rw [foldingsAlong, foldings, units_concat text nonempty, List.map_append,
    List.reverse_append]
  rfl

theorem foldingsAlong_of_empty (text : Octets) (direction : Direction)
    (empty : ¬first < last) : text.foldingsAlong direction first last = [] := by
  cases direction with
  | forward => exact text.foldings_of_empty empty
  | reverse => rw [foldingsAlong, text.foldings_of_empty empty, List.reverse_nil]

theorem foldings_cons {landing : Nat} (cut : text.IsCut first last position)
    (landed : text.IsCut first last landing) (before : position < landing) :
    text.foldings position landing =
      (text.unitFrom position last).rune.caseFold ::
        text.foldings (text.unitFrom position last).last landing := by
  have ends := cut.unitFrom_last_le_of_lt landed before
  have same := unitFrom_eq_of_last_le before landed.le_last ends
  rw [foldings, units_cons text before, same]
  rfl

end Octets

namespace Subject

variable {subject : Subject} {direction : Direction} {position landing : Nat}

/-! ## Foldings -/

section

variable [CharacterData]

def passFoldings (subject : Subject) (direction : Direction) : List Rune → Nat → Option Nat
  | [], position => some position
  | folding :: rest, position =>
      (subject.codePointAhead position direction).bind fun unit =>
        if unit.rune.caseFold = folding then
          subject.passFoldings direction rest (unit.landing direction)
        else none

theorem passFoldings_append (front back : List Rune) (position : Nat) :
    subject.passFoldings direction (front ++ back) position =
      (subject.passFoldings direction front position).bind
        (subject.passFoldings direction back) := by
  induction front generalizing position with
  | nil => rfl
  | cons folding front induction =>
      rw [List.cons_append, passFoldings, passFoldings, Option.bind_assoc]
      congr 1
      funext unit
      split
      · exact induction _
      · rfl

theorem passFolded_eq (subject : Subject) (literal : Octets) (direction : Direction)
    (position first last : Nat) :
    subject.passFolded literal direction position first last =
      subject.passFoldings direction (literal.foldingsAlong direction first last) position := by
  fun_induction passFolded subject literal direction position first last with
  | case1 position first last nonempty wanted unit found same induction =>
      rw [literal.foldingsAlong_forward nonempty, passFoldings, found, Option.bind_some,
        if_pos same]
      exact induction
  | case2 position first last nonempty wanted unit found different =>
      rw [literal.foldingsAlong_forward nonempty, passFoldings, found, Option.bind_some,
        if_neg different]
  | case3 position first last nonempty missing =>
      rw [literal.foldingsAlong_forward nonempty, passFoldings, missing, Option.bind_none]
  | case4 position first last nonempty wanted unit found same induction =>
      rw [literal.foldingsAlong_reverse nonempty, passFoldings, found, Option.bind_some,
        if_pos same]
      exact induction
  | case5 position first last nonempty wanted unit found different =>
      rw [literal.foldingsAlong_reverse nonempty, passFoldings, found, Option.bind_some,
        if_neg different]
  | case6 position first last nonempty missing =>
      rw [literal.foldingsAlong_reverse nonempty, passFoldings, missing, Option.bind_none]
  | case7 direction position first last empty =>
      rw [literal.foldingsAlong_of_empty direction empty, passFoldings]

/-- From a cut the foldings lead to the cut up to which they are those of the text. -/
theorem passFoldings_eq_some_iff {foldings : List Rune} (cut : subject.IsCut position) :
    subject.passFoldings .forward foldings position = some landing ↔
      subject.IsCut landing ∧ position ≤ landing ∧
        subject.text.octets.foldings position landing = foldings := by
  induction foldings generalizing position with
  | nil =>
      rw [passFoldings, Option.some.injEq, Octets.foldings_eq_nil_iff]
      constructor
      · rintro rfl
        exact ⟨cut, Nat.le_refl _, Nat.lt_irrefl _⟩
      · rintro ⟨-, onward, ended⟩
        omega
  | cons folding rest induction =>
      rw [passFoldings, Option.bind_eq_some_iff]
      constructor
      · rintro ⟨unit, found, passes⟩
        obtain ⟨inside, rfl⟩ := (codePointAhead_eq_some found).2
        obtain ⟨same, passes⟩ := Option.ite_none_right_eq_some.mp passes
        obtain ⟨landed, onward, others⟩ := (induction (cut.next inside)).mp passes
        have before := subject.text.octets.lt_unitFrom_last inside
        have ahead : position < landing := Nat.lt_of_lt_of_le before onward
        refine ⟨landed, Nat.le_of_lt ahead, ?_⟩
        rw [Octets.foldings_cons cut landed ahead, same]
        exact congrArg _ others
      · rintro ⟨landed, onward, foldings⟩
        have ahead : position < landing := by
          by_contra ended
          rw [Octets.foldings_of_empty _ ended] at foldings
          cases foldings
        have inside : position < subject.upper := Nat.lt_of_lt_of_le ahead landed.le_last
        rw [Octets.foldings_cons cut landed ahead, List.cons.injEq] at foldings
        refine ⟨_, codePointAhead_forward cut.covers inside, ?_⟩
        rw [if_pos foldings.1]
        exact (induction (cut.next inside)).mpr
          ⟨landed, cut.unitFrom_last_le_of_lt landed ahead, foldings.2⟩

/-! ## Literals -/

omit [CharacterData] in
theorem passExact_comm {literal : Octets} :
    subject.passExact position literal.all .forward = some landing ↔
      (subject.covers position = true ∧ subject.covers landing = true) ∧
        subject.passExact landing literal.all .reverse = some position := by
  simp only [passExact_eq_some_iff, covers_iff]
  constructor
  · rintro ⟨within, rfl, inside, holds⟩
    exact ⟨⟨within, by omega⟩, by omega, rfl, within.1, holds⟩
  · rintro ⟨⟨within, -⟩, inside, rfl, -, holds⟩
    exact ⟨within, rfl, inside.2, holds⟩

theorem passFolded_comm (literal : Octets) (cut : subject.IsCut position)
    (landed : subject.IsCut landing) :
    subject.passFolded literal .forward position 0 literal.size = some landing ↔
      subject.passFolded literal .reverse landing 0 literal.size = some position :=
  ⟨fun passes => (passFolded_mirrors literal .forward cut passes).2,
    fun passes => (passFolded_mirrors literal .reverse landed passes).2⟩

/-- A literal leads forward from one position to another just if it leads back in reverse:
from anywhere between the limits where octets are compared, and between cuts where case
does not count. There it does so just if the text from the one cut to the other folds to
what the literal folds to. -/
theorem passLiteral_inverts (subject : Subject) (literal : Octets) :
    (∀ position landing,
      subject.passLiteral position literal.all .forward false = some landing ↔
        (subject.covers position = true ∧ subject.covers landing = true) ∧
          subject.passLiteral landing literal.all .reverse false = some position) ∧
    ∀ position landing, subject.IsCut position → subject.IsCut landing →
      (subject.passLiteral position literal.all .forward true = some landing ↔
        subject.passLiteral landing literal.all .reverse true = some position) ∧
      (subject.passLiteral position literal.all .forward true = some landing ↔
        position ≤ landing ∧
          subject.text.octets.foldings position landing = literal.foldings 0 literal.size) := by
  refine ⟨fun position landing => passExact_comm, fun position landing cut landed => ?_⟩
  simp only [passLiteral, if_true, cut.covers, landed.covers]
  refine ⟨passFolded_comm literal cut landed, ?_⟩
  rw [passFolded_eq, passFoldings_eq_some_iff cut]
  exact and_iff_right landed

def letterAndStray : Subject :=
  ⟨.byUnits #[0x61, 0x62, 0x6B, 0xFF, 0x61], 2, 4, .codePoint, by decide, by decide⟩

end

open scoped Repertoire in
theorem letterAndStray_inverts :
    letterAndStray.passLiteral 2 (Octets.all #[0xE2, 0x84, 0xAA, 0xC3]) .forward true = some 4 ∧
      letterAndStray.passLiteral 4 (Octets.all #[0xE2, 0x84, 0xAA, 0xC3]) .reverse true =
        some 2 := by
  have inverts := (passLiteral_inverts letterAndStray #[0xE2, 0x84, 0xAA, 0xC3]).2 2 4
    letterAndStray.isCut_lower letterAndStray.isCut_upper
  have passes := inverts.2.mpr ⟨by decide, by decide +kernel⟩
  exact ⟨passes, inverts.1.mp passes⟩

end Subject

end RegexMachine
