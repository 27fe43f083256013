import RegexMachine.Proofs.Text.Inversion
import RegexMachine.Proofs.Text.Reversal

/-! # Foldings of texts

A text is folded unit by unit, so encoded runes are folded rune by rune. Comparing
without case with the encoding of a single rune is testing the unit ahead. -/

namespace RegexMachine

open Utf8 (encode)

namespace Octets

variable {text : Octets}

/-! ## Units are scalar values -/

theorem isScalar_replacement : Rune.IsScalar Rune.replacement := by decide

theorem isScalar_unitFrom (text : Octets) (first last : Nat) :
    (text.unitFrom first last).rune.IsScalar := by
  rw [unitFrom]
  split
  · next rune length decoded => exact (Utf8.decode?_eq_some_iff_encode.mp decoded).1
  · exact isScalar_replacement

theorem isScalar_unitBefore (text : Octets) (first last : Nat) :
    (text.unitBefore first last).rune.IsScalar := by
  rw [unitBefore]
  split
  · exact isScalar_replacement
  · split
    · exact isScalar_unitFrom text _ _
    · exact isScalar_replacement

/-! ## Encodings -/

theorem length_encode_pos {rune : Rune} (scalar : rune.IsScalar) :
    0 < (encode rune).length :=
  Utf8.decode?_length_pos (Utf8.decode?_encode_append scalar [])

theorem length_encode_le {rune : Rune} (scalar : rune.IsScalar) :
    (encode rune).length ≤ 4 :=
  Utf8.decode?_length_le_four (Utf8.decode?_encode_append scalar [])

theorem foldCase_of_encodings {runes : List Rune} (scalars : ∀ rune ∈ runes, rune.IsScalar)
    (fold : Rune → Rune) :
    foldCase (runes.flatMap encode).toArray fold =
      ((runes.map fold).flatMap encode).toArray := by
  have units : (units (runes.flatMap encode).toArray 0 _).map (·.rune) = runes :=
    units_of_encodings scalars rfl
  conv_rhs => rw [← units]
  simp only [foldCase, List.flatMap_map]

theorem foldCase_encode {rune : Rune} (scalar : rune.IsScalar) (fold : Rune → Rune) :
    foldCase (encode rune).toArray fold = (encode (fold rune)).toArray := by
  have scalars : ∀ other ∈ [rune], other.IsScalar := by simpa using scalar
  simpa using foldCase_of_encodings scalars fold

theorem units_encode {rune : Rune} (scalar : rune.IsScalar) :
    unitFrom (encode rune).toArray 0 (encode rune).length =
        ⟨rune, 0, (encode rune).length⟩ ∧
      unitBefore (encode rune).toArray 0 (encode rune).length =
        ⟨rune, 0, (encode rune).length⟩ := by
  have ahead : unitFrom (encode rune).toArray 0 (encode rune).length =
      ⟨rune, 0, (encode rune).length⟩ := by
    have unit : unitFrom (encode rune).toArray 0 _ = ⟨rune, 0, _⟩ :=
      unitFrom_of_encode 0 scalar (List.prefix_refl _)
    simpa using unit
  have opening : IsCut (encode rune).toArray 0 (encode rune).length 0 :=
    .opening (Nat.zero_le _)
  have back := unitBefore_unitFrom opening (length_encode_pos scalar)
  rw [ahead] at back
  exact ⟨ahead, back⟩

end Octets

namespace Subject

variable {subject : Subject} {position : Nat}

theorem isScalar_codePointAhead {direction : Direction} {unit : TextUnit}
    (found : subject.codePointAhead position direction = some unit) :
    unit.rune.IsScalar := by
  obtain ⟨-, shape⟩ := codePointAhead_eq_some found
  cases direction with
  | forward =>
      rw [shape.2]
      exact Octets.isScalar_unitFrom _ _ _
  | reverse =>
      rw [shape.2]
      exact Octets.isScalar_unitBefore _ _ _

theorem isScalar_unitAhead {direction : Direction} {unit : TextUnit}
    (found : subject.unitAhead position direction = some unit) : unit.rune.IsScalar := by
  rw [unitAhead] at found
  split at found
  · exact isScalar_codePointAhead found
  · unfold clusterAhead at found
    split at found
    · cases direction with
      | forward =>
          obtain ⟨last, -, rfl⟩ := Option.map_eq_some_iff.mp found
          exact Octets.isScalar_unitFrom _ _ _
      | reverse =>
          obtain ⟨first, -, rfl⟩ := Option.map_eq_some_iff.mp found
          exact Octets.isScalar_unitFrom _ _ _
    · cases found

/-- Only scalar values are ever tested. -/
theorem passUnit_congr {test other : Rune → Bool}
    (alike : ∀ rune : Rune, rune.IsScalar → test rune = other rune) (position : Nat)
    (direction : Direction) :
    subject.passUnit position direction test = subject.passUnit position direction other := by
  rw [passUnit, passUnit]
  cases ahead : subject.unitAhead position direction with
  | none => rfl
  | some unit =>
      rw [Option.filter_some, Option.filter_some, alike unit.rune (isScalar_unitAhead ahead)]

variable [CharacterData]

theorem passFolded_of_empty (literal : Octets) (direction : Direction) (place : Nat) :
    subject.passFolded literal direction position place place = some position := by
  unfold passFolded
  rw [if_neg (Nat.lt_irrefl place)]

theorem passLiteral_encode (codePoints : subject.granularity = .codePoint)
    (covered : subject.covers position = true) {rune : Rune} (scalar : rune.IsScalar)
    (direction : Direction) :
    subject.passLiteral position (Octets.all (encode rune).toArray) direction true =
      subject.passUnit position direction fun other => other.caseFold = rune.caseFold := by
  obtain ⟨ahead, back⟩ := Octets.units_encode scalar
  have nonempty := Octets.length_encode_pos scalar
  simp only [passLiteral, if_true, covered, Octets.all, List.size_toArray]
  unfold passFolded
  rw [if_pos nonempty, passUnit, unitAhead_of_codePoints codePoints]
  cases direction with
  | forward =>
      rw [ahead]
      simp only
      cases subject.codePointAhead position .forward with
      | none => rfl
      | some unit =>
          simp only [passFolded_of_empty, Option.filter_some, decide_eq_true_eq]
          split <;> rfl
  | reverse =>
      rw [back]
      simp only
      cases subject.codePointAhead position .reverse with
      | none => rfl
      | some unit =>
          simp only [passFolded_of_empty, Option.filter_some, decide_eq_true_eq]
          split <;> rfl

end Subject

end RegexMachine
