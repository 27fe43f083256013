import RegexMachine.Proofs.Text.Decoding

/-! # Units of a text

Which unit starts at a position hardly depends on where the range ends that it
is read from: any end behind the unit gives the same unit. -/

namespace RegexMachine

namespace Octets

variable {text : Octets} {first middle last : Nat}

theorem window_getElem? (text : Octets) (first last index : Nat) :
    (text.window first last)[index]? =
      if first + index < last ∧ index < 4 then text[first + index]? else none := by
  simp only [window, Array.getElem?_toList, Array.getElem?_extract]
  by_cases inside : first + index < text.size
  · exact ite_congr (propext (by omega)) (fun _ => rfl) (fun _ => rfl)
  · rw [if_neg (by omega), Array.getElem?_eq_none (by omega)]
    exact (ite_self none).symm

theorem window_take (text : Octets) (first : Nat) {middle last : Nat}
    (ordered : middle ≤ last) :
    (text.window first last).take (middle - first) = text.window first middle := by
  apply List.ext_getElem?
  intro index
  rw [List.getElem?_take, window_getElem?, window_getElem?]
  split
  · exact ite_congr (propext (by omega)) (fun _ => rfl) (fun _ => rfl)
  · rw [if_neg (by omega)]

theorem length_window_le (text : Octets) (first last : Nat) :
    (text.window first last).length ≤ last - first := by
  simp only [window, Array.length_toList, Array.size_extract]
  omega

theorem unitFrom_of_decode? {rune : Rune} {count : Nat}
    (decoded : Utf8.decode? (text.window first last) = some (rune, count)) :
    text.unitFrom first last = ⟨rune, first, first + count⟩ := by
  rw [unitFrom, decoded]

theorem unitFrom_of_stray (undecoded : Utf8.decode? (text.window first last) = none)
    (inside : first < last) :
    text.unitFrom first last = ⟨Rune.replacement, first, first + 1⟩ := by
  rw [unitFrom, undecoded]
  simp only [strayFrom, inside, if_true]

theorem unitFrom_last_le (text : Octets) (inside : first < last) :
    (text.unitFrom first last).last ≤ last := by
  cases decoded : Utf8.decode? (text.window first last) with
  | none =>
      rw [unitFrom_of_stray decoded inside]
      exact inside
  | some found =>
      have := Utf8.decode?_length_le decoded
      have := length_window_le text first last
      rw [unitFrom_of_decode? decoded]
      simp only
      omega

theorem decode?_window_mono {rune : Rune} {count : Nat} (ordered : middle ≤ last)
    (decoded : Utf8.decode? (text.window first middle) = some (rune, count)) :
    Utf8.decode? (text.window first last) = some (rune, count) := by
  rw [← window_take text first ordered] at decoded
  exact Utf8.decode?_of_take decoded

theorem unitFrom_eq_of_last_le (inside : first < middle) (ordered : middle ≤ last)
    (ends : (text.unitFrom first last).last ≤ middle) :
    text.unitFrom first middle = text.unitFrom first last := by
  cases decoded : Utf8.decode? (text.window first last) with
  | none =>
      rw [unitFrom_of_stray decoded (by omega)]
      apply unitFrom_of_stray _ inside
      cases shorter : Utf8.decode? (text.window first middle) with
      | none => rfl
      | some found =>
          rw [decode?_window_mono ordered shorter] at decoded
          cases decoded
  | some found =>
      rw [unitFrom_of_decode? decoded] at ends ⊢
      simp only at ends
      apply unitFrom_of_decode?
      rw [← window_take text first ordered]
      exact Utf8.decode?_take decoded (by omega)

/-- Of the octets of a unit only the first can be a lead octet. -/
theorem not_isLead_of_inside {position : Nat} {octet : UInt8}
    (behind : first < position) (inside : position < (text.unitFrom first last).last)
    (found : text[position]? = some octet) (nonempty : first < last) :
    Utf8.isLead octet = false := by
  cases decoded : Utf8.decode? (text.window first last) with
  | none =>
      rw [unitFrom_of_stray decoded nonempty] at inside
      simp only at inside
      omega
  | some result =>
      have four := Utf8.decode?_length_le_four decoded
      have ends := unitFrom_last_le text nonempty
      rw [unitFrom_of_decode? decoded] at inside ends
      simp only at inside ends
      have read : (text.window first last)[position - first]? = some octet := by
        have here : first + (position - first) = position := by omega
        rw [window_getElem?, here, if_pos (by omega), found]
      rw [Utf8.decode?_isLead decoded (by omega) read, decide_eq_false_iff_not]
      omega

end Octets

end RegexMachine
