/-! # Runes

A rune is a code point. Numbers beyond the code space are runes too, since
ranges may name them; the scalar values are the runes a text can encode. -/

namespace RegexMachine

/-- A code point, or a number that stands where one is expected. -/
abbrev Rune := Nat

namespace Rune

def last : Rune := 0x10FFFF

/-- What an octet that belongs to no well-formed sequence is read as. -/
def replacement : Rune := 0xFFFD

def IsScalar (rune : Rune) : Prop :=
  rune < 0xD800 ∨ (0xE000 ≤ rune ∧ rune ≤ last)

instance (rune : Rune) : Decidable rune.IsScalar :=
  inferInstanceAs (Decidable (rune < 0xD800 ∨ (0xE000 ≤ rune ∧ rune ≤ last)))

theorem IsScalar.le_last {rune : Rune} (scalar : IsScalar rune) : rune ≤ last := by
  rcases scalar with low | ⟨-, high⟩
  · exact Nat.le_trans (Nat.le_of_lt low) (by decide)
  · exact high

def isLineTerminator (rune : Rune) : Bool :=
  rune == 0x0A || rune == 0x0D || rune == 0x2028 || rune == 0x2029

end Rune

end RegexMachine
