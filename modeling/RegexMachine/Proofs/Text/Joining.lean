import RegexMachine.Proofs.Text.Comparison
import RegexMachine.Proofs.Text.Folding

/-! # Joined texts

Behind a text that is well formed another one is read, folded and compared as it is by
itself. So a literal that is joined from others is passed as these are, one after the
other in the order of the direction. -/

namespace RegexMachine

namespace Octets

variable {text part front back : Octets} {offset first last : Nat}

def join : List Octets → Octets
  | [] => #[]
  | word :: words => word ++ join words

/-! ## Reading -/

theorem holds_append :
    text.Holds offset (front ++ back) ↔
      text.Holds offset front ∧ text.Holds (offset + front.size) back := by
  constructor
  · intro holds
    constructor
    · intro index below
      rw [holds index (by rw [Array.size_append]; omega), Array.getElem?_append_left below]
    · intro index below
      rw [Nat.add_assoc, holds _ (by rw [Array.size_append]; omega),
        Array.getElem?_append_right (Nat.le_add_right _ _), Nat.add_sub_cancel_left]
  · rintro ⟨left, right⟩ index below
    rw [Array.size_append] at below
    rcases Nat.lt_or_ge index front.size with inside | behind
    · rw [left index inside, Array.getElem?_append_left inside]
    · obtain ⟨distance, rfl⟩ := Nat.exists_eq_add_of_le behind
      rw [← Nat.add_assoc, right distance (by omega), Array.getElem?_append_right behind,
        Nat.add_sub_cancel_left]

theorem holds_front (front back : Octets) : Holds (front ++ back) 0 front := by
  intro index below
  rw [Nat.zero_add, Array.getElem?_append_left below]

theorem holds_back (front back : Octets) : Holds (front ++ back) front.size back := by
  intro index below
  rw [Array.getElem?_append_right (Nat.le_add_right _ _), Nat.add_sub_cancel_left]

theorem units_shift (holds : text.Holds offset part) (inside : last ≤ part.size) :
    text.units (offset + first) (offset + last) =
      (part.units first last).map (·.shift offset) := by
  fun_induction units part first last with
  | case1 first nonempty induction =>
      rw [units_cons text (Nat.add_lt_add_left nonempty offset), unitFrom_shift holds inside,
        List.map_cons, ← induction]
      rfl
  | case2 first ended =>
      rw [units, if_neg (by omega), List.map_nil]

/-- What is well formed ends at a cut, whatever is behind it. -/
theorem WellFormed.isCut_join (formed : front.WellFormed) (back : Octets) :
    IsCut (front ++ back) 0 (front ++ back).size front.size := by
  have opening : IsCut (front ++ back) 0 (front ++ back).size 0 := .opening (Nat.zero_le _)
  have inside : 0 + front.size ≤ (front ++ back).size := by
    rw [Array.size_append]
    omega
  have cut := formed.isCut_end (holds_front front back) inside opening
  rwa [Nat.zero_add] at cut

theorem units_join (cut : IsCut (front ++ back) 0 (front ++ back).size front.size) :
    (units (front ++ back) 0 (front ++ back).size).map (·.rune) =
      (front.units 0 front.size).map (·.rune) ++ (back.units 0 back.size).map (·.rune) := by
  have first : units (front ++ back) (0 + 0) (0 + front.size) = _ :=
    units_shift (holds_front front back) (Nat.le_refl front.size)
  have second : units (front ++ back) (front.size + 0) (front.size + back.size) = _ :=
    units_shift (holds_back front back) (Nat.le_refl back.size)
  rw [Nat.zero_add, Nat.zero_add] at first
  rw [Nat.add_zero, ← Array.size_append] at second
  rw [units_append cut, first, second, List.map_append, List.map_map, List.map_map]
  rfl

theorem foldCase_eq (text : Octets) (fold : Rune → Rune) :
    text.foldCase fold =
      ((((text.units 0 text.size).map (·.rune)).map fold).flatMap Utf8.encode).toArray := by
  simp only [foldCase, List.flatMap_map]

theorem foldCase_join (fold : Rune → Rune)
    (cut : IsCut (front ++ back) 0 (front ++ back).size front.size) :
    foldCase (front ++ back) fold = front.foldCase fold ++ back.foldCase fold := by
  simp only [foldCase_eq, units_join cut, List.map_append, List.flatMap_append,
    List.append_toArray]

variable [CharacterData]

theorem foldings_eq_map (text : Octets) (first last : Nat) :
    text.foldings first last = ((text.units first last).map (·.rune)).map Rune.caseFold := by
  rw [foldings, List.map_map]
  rfl

theorem foldings_join (cut : IsCut (front ++ back) 0 (front ++ back).size front.size) :
    foldings (front ++ back) 0 (front ++ back).size =
      front.foldings 0 front.size ++ back.foldings 0 back.size := by
  simp only [foldings_eq_map, units_join cut, List.map_append]

theorem foldingsAlong_join (cut : IsCut (front ++ back) 0 (front ++ back).size front.size) :
    foldingsAlong (front ++ back) .forward 0 (front ++ back).size =
        front.foldingsAlong .forward 0 front.size ++ back.foldingsAlong .forward 0 back.size ∧
      foldingsAlong (front ++ back) .reverse 0 (front ++ back).size =
        back.foldingsAlong .reverse 0 back.size ++
          front.foldingsAlong .reverse 0 front.size := by
  simp only [foldingsAlong, foldings_join cut, List.reverse_append, and_self]

end Octets

/-! ## Literals -/

namespace Subject

variable {subject : Subject} {direction : Direction} {position : Nat}
  {literal front back : Octets}

variable [CharacterData]

theorem passLiteral_caseless (covered : subject.covers position = true) (literal : Octets)
    (direction : Direction) :
    subject.passLiteral position literal.all direction true =
      subject.passFoldings direction (literal.foldingsAlong direction 0 literal.size)
        position := by
  rw [← passFolded_eq, passLiteral, if_pos rfl, if_pos covered]
  rfl

/-- Literals whose foldings make up those of another one are passed as that one. -/
theorem passLiteral_of_foldingsAlong
    (along : literal.foldingsAlong direction 0 literal.size =
      front.foldingsAlong direction 0 front.size ++ back.foldingsAlong direction 0 back.size)
    (position : Nat) :
    subject.passLiteral position literal.all direction true =
      (subject.passLiteral position front.all direction true).bind
        (subject.passLiteral · back.all direction true) := by
  by_cases covered : subject.covers position = true
  · have keeps := subject.keeps_passLiteral position direction front.all true
    rw [passLiteral_caseless covered front] at keeps ⊢
    rw [passLiteral_caseless covered literal, along, passFoldings_append]
    cases passed : subject.passFoldings direction
        (front.foldingsAlong direction 0 front.size) position with
    | none => rfl
    | some middle =>
        rw [Option.bind_some, Option.bind_some,
          passLiteral_caseless (keeps middle passed).2.1]
  · have missed (other : Octets) :
        subject.passLiteral position other.all direction true = none := by
      rw [passLiteral, if_pos rfl, if_neg covered]
    rw [missed, missed, Option.bind_none]

omit [CharacterData] in
theorem passExact_append_forward (front back : Octets) (position : Nat) :
    subject.passExact position (Octets.all (front ++ back)) .forward =
      (subject.passExact position front.all .forward).bind
        (subject.passExact · back.all .forward) := by
  apply Option.ext
  intro landing
  simp only [Option.bind_eq_some_iff, passExact_eq_some_iff, Octets.holds_append,
    Array.size_append, covers_iff]
  constructor
  · rintro ⟨within, rfl, inside, first, second⟩
    exact ⟨_, ⟨within, rfl, by omega, first⟩, ⟨by omega, by omega⟩, by omega, inside, second⟩
  · rintro ⟨_, ⟨within, rfl, -, first⟩, -, rfl, inside, second⟩
    exact ⟨within, by omega, inside, first, second⟩

omit [CharacterData] in
theorem passExact_append_reverse (front back : Octets) (position : Nat) :
    subject.passExact position (Octets.all (front ++ back)) .reverse =
      (subject.passExact position back.all .reverse).bind
        (subject.passExact · front.all .reverse) := by
  apply Option.ext
  intro landing
  simp only [Option.bind_eq_some_iff, passExact_eq_some_iff, Octets.holds_append,
    Array.size_append, covers_iff]
  constructor
  · rintro ⟨within, rfl, inside, first, second⟩
    exact ⟨landing + front.size, ⟨within, by omega, by omega, second⟩,
      ⟨by omega, by omega⟩, rfl, inside, first⟩
  · rintro ⟨_, ⟨within, rfl, -, second⟩, -, rfl, inside, first⟩
    exact ⟨within, by omega, inside, first, second⟩

theorem passLiteral_join (subject : Subject) (formed : front.WellFormed) (back : Octets)
    (caseless : Bool) (position : Nat) :
    subject.passLiteral position (Octets.all (front ++ back)) .forward caseless =
        (subject.passLiteral position front.all .forward caseless).bind
          (subject.passLiteral · back.all .forward caseless) ∧
      subject.passLiteral position (Octets.all (front ++ back)) .reverse caseless =
        (subject.passLiteral position back.all .reverse caseless).bind
          (subject.passLiteral · front.all .reverse caseless) := by
  cases caseless with
  | false => exact ⟨passExact_append_forward front back position,
      passExact_append_reverse front back position⟩
  | true =>
      have along := Octets.foldingsAlong_join (formed.isCut_join back)
      exact ⟨passLiteral_of_foldingsAlong along.1 position,
        passLiteral_of_foldingsAlong along.2 position⟩

theorem passLiteral_empty (covered : subject.covers position = true) (direction : Direction)
    (caseless : Bool) :
    subject.passLiteral position (Octets.all #[]) direction caseless = some position := by
  cases caseless with
  | false =>
      rw [covers_iff] at covered
      refine passExact_eq_some_iff.mpr ⟨covers_iff.mpr covered, ?_⟩
      cases direction with
      | forward => exact ⟨rfl, covered.2, fun _ below => absurd below (Nat.not_lt_zero _)⟩
      | reverse => exact ⟨rfl, covered.1, fun _ below => absurd below (Nat.not_lt_zero _)⟩
  | true =>
      have none : Octets.foldingsAlong #[] direction 0 (#[] : Octets).size = [] :=
        Octets.foldingsAlong_of_empty _ direction (Nat.lt_irrefl 0)
      rw [passLiteral_caseless covered, none, passFoldings]

end Subject

end RegexMachine
