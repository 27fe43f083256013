import RegexMachine.Rune.Property

/-! # A repertoire of runes

Character data for a small repertoire. ASCII is given by rules and the runes beyond
it by a table in ascending order. A rune that is in neither folds to itself and has
no other property. -/

namespace RegexMachine

/-- The general category, as coarse as the classes below need it. -/
inductive Category where
  | upperLetter
  | lowerLetter
  | titleLetter
  | otherLetter
  | mark
  | decimalDigit
  | letterNumber
  | otherNumber
  | punctuation
  | symbol
  | separator
  | other
deriving DecidableEq, Repr

structure RuneProperties where
  rune : Rune
  folding : Rune
  category : Category
  whiteSpace : Bool
deriving DecidableEq, Repr

namespace Repertoire

def rows : List RuneProperties := [
  ⟨0x0085, 0x0085, .other, true⟩,
  ⟨0x00A0, 0x00A0, .separator, true⟩,
  ⟨0x00AB, 0x00AB, .punctuation, false⟩,
  ⟨0x00B2, 0x00B2, .otherNumber, false⟩,
  ⟨0x00B5, 0x03BC, .lowerLetter, false⟩,
  ⟨0x00BB, 0x00BB, .punctuation, false⟩,
  ⟨0x00BF, 0x00BF, .punctuation, false⟩,
  ⟨0x00C0, 0x00E0, .upperLetter, false⟩,
  ⟨0x00C5, 0x00E5, .upperLetter, false⟩,
  ⟨0x00C9, 0x00E9, .upperLetter, false⟩,
  ⟨0x00CF, 0x00EF, .upperLetter, false⟩,
  ⟨0x00D7, 0x00D7, .symbol, false⟩,
  ⟨0x00DF, 0x00DF, .lowerLetter, false⟩,
  ⟨0x00E0, 0x00E0, .lowerLetter, false⟩,
  ⟨0x00E5, 0x00E5, .lowerLetter, false⟩,
  ⟨0x00E9, 0x00E9, .lowerLetter, false⟩,
  ⟨0x00EF, 0x00EF, .lowerLetter, false⟩,
  ⟨0x00FF, 0x00FF, .lowerLetter, false⟩,
  ⟨0x0130, 0x0130, .upperLetter, false⟩,
  ⟨0x0131, 0x0131, .lowerLetter, false⟩,
  ⟨0x0178, 0x00FF, .upperLetter, false⟩,
  ⟨0x017F, 0x0073, .lowerLetter, false⟩,
  ⟨0x01C4, 0x01C6, .upperLetter, false⟩,
  ⟨0x01C5, 0x01C6, .titleLetter, false⟩,
  ⟨0x01C6, 0x01C6, .lowerLetter, false⟩,
  ⟨0x0300, 0x0300, .mark, false⟩,
  ⟨0x0301, 0x0301, .mark, false⟩,
  ⟨0x0391, 0x03B1, .upperLetter, false⟩,
  ⟨0x03A3, 0x03C3, .upperLetter, false⟩,
  ⟨0x03A9, 0x03C9, .upperLetter, false⟩,
  ⟨0x03B1, 0x03B1, .lowerLetter, false⟩,
  ⟨0x03BC, 0x03BC, .lowerLetter, false⟩,
  ⟨0x03C2, 0x03C3, .lowerLetter, false⟩,
  ⟨0x03C3, 0x03C3, .lowerLetter, false⟩,
  ⟨0x03C9, 0x03C9, .lowerLetter, false⟩,
  ⟨0x0410, 0x0430, .upperLetter, false⟩,
  ⟨0x0430, 0x0430, .lowerLetter, false⟩,
  ⟨0x05D0, 0x05D0, .otherLetter, false⟩,
  ⟨0x0660, 0x0660, .decimalDigit, false⟩,
  ⟨0x1E9E, 0x00DF, .upperLetter, false⟩,
  ⟨0x2014, 0x2014, .punctuation, false⟩,
  ⟨0x2028, 0x2028, .separator, true⟩,
  ⟨0x2029, 0x2029, .separator, true⟩,
  ⟨0x20AC, 0x20AC, .symbol, false⟩,
  ⟨0x2126, 0x03C9, .upperLetter, false⟩,
  ⟨0x212A, 0x006B, .upperLetter, false⟩,
  ⟨0x212B, 0x00E5, .upperLetter, false⟩,
  ⟨0x2160, 0x2170, .letterNumber, false⟩,
  ⟨0x2170, 0x2170, .letterNumber, false⟩,
  ⟨0x24B6, 0x24D0, .symbol, false⟩,
  ⟨0x24D0, 0x24D0, .symbol, false⟩,
  ⟨0x3000, 0x3000, .separator, true⟩,
  ⟨0x4E2D, 0x4E2D, .otherLetter, false⟩,
  ⟨0x65E5, 0x65E5, .otherLetter, false⟩,
  ⟨0xFF11, 0xFF11, .decimalDigit, false⟩,
  ⟨0xFF21, 0xFF41, .upperLetter, false⟩,
  ⟨0xFF41, 0xFF41, .lowerLetter, false⟩,
  ⟨0xFFFD, 0xFFFD, .symbol, false⟩,
  ⟨0x10400, 0x10428, .upperLetter, false⟩,
  ⟨0x10428, 0x10428, .lowerLetter, false⟩,
  ⟨0x1D7CE, 0x1D7CE, .decimalDigit, false⟩,
  ⟨0x1F1EB, 0x1F1EB, .symbol, false⟩,
  ⟨0x1F1F7, 0x1F1F7, .symbol, false⟩,
  ⟨0x1F468, 0x1F468, .symbol, false⟩,
  ⟨0x1F469, 0x1F469, .symbol, false⟩,
  ⟨0x1F600, 0x1F600, .symbol, false⟩]

def properties? (rune : Rune) : Option RuneProperties :=
  rows.find? fun row => row.rune == rune

/-- The category of an ASCII rune. Of the ASCII marks, the currency,
mathematical and modifier signs are symbols and the others punctuation. -/
def asciiCategory (rune : Rune) : Category :=
  if rune < 0x20 || rune == 0x7F then .other
  else if rune == 0x20 then .separator
  else if 0x30 ≤ rune && rune ≤ 0x39 then .decimalDigit
  else if 0x41 ≤ rune && rune ≤ 0x5A then .upperLetter
  else if 0x61 ≤ rune && rune ≤ 0x7A then .lowerLetter
  else if [0x24, 0x2B, 0x3C, 0x3D, 0x3E, 0x5E, 0x60, 0x7C, 0x7E].contains rune then
    .symbol
  else .punctuation

def category (rune : Rune) : Category :=
  if rune < 0x80 then asciiCategory rune
  else (properties? rune).elim .other (·.category)

def caseFold (rune : Rune) : Rune :=
  if rune < 0x80 then
    if 0x41 ≤ rune && rune ≤ 0x5A then rune + 0x20 else rune
  else (properties? rune).elim rune (·.folding)

def isWhiteSpace (rune : Rune) : Bool :=
  if rune < 0x80 then (0x09 ≤ rune && rune ≤ 0x0D) || rune == 0x20
  else (properties? rune).elim false (·.whiteSpace)

def isLetter (rune : Rune) : Bool :=
  match category rune with
  | .upperLetter | .lowerLetter | .titleLetter | .otherLetter => true
  | _ => false

def isDecimalDigit (rune : Rune) : Bool := category rune == .decimalDigit

/-- Whether the rune is a hexadecimal digit. Every decimal digit is one, and so
are the letters A to F in their ASCII and fullwidth forms. -/
def isHexDigit (rune : Rune) : Bool :=
  isDecimalDigit rune ||
    (0x41 ≤ rune && rune ≤ 0x46) || (0x61 ≤ rune && rune ≤ 0x66) ||
    (0xFF21 ≤ rune && rune ≤ 0xFF26) || (0xFF41 ≤ rune && rune ≤ 0xFF46)

/-! ## Folding

Only the rows and the rule for ASCII decide how a rune folds, so what folding keeps
is read off them. -/

variable {rune : Nat}

theorem caseFold_cases (rune : Nat) :
    caseFold rune = rune ∨ (0x41 ≤ rune ∧ rune ≤ 0x5A ∧ caseFold rune = rune + 0x20) ∨
      ∃ row ∈ rows, row.rune = rune ∧ caseFold rune = row.folding := by
  unfold caseFold
  split
  · split
    · next letter =>
        simp only [Bool.and_eq_true, decide_eq_true_eq] at letter
        exact .inr (.inl ⟨letter.1, letter.2, rfl⟩)
    · exact .inl rfl
  · cases found : properties? rune with
    | none => exact .inl rfl
    | some row =>
        have named := List.find?_some found
        rw [beq_iff_eq] at named
        exact .inr (.inr ⟨row, List.mem_of_find?_eq_some found, named, rfl⟩)

private theorem isScalar_row : ∀ row ∈ rows, row.rune.IsScalar ∧ row.folding.IsScalar := by
  decide +kernel

private theorem caseFold_row : ∀ row ∈ rows, caseFold row.folding = row.folding := by
  decide +kernel

theorem caseFold_caseFold (rune : Nat) : caseFold (caseFold rune) = caseFold rune := by
  rcases caseFold_cases rune with same | ⟨low, high, small⟩ | ⟨row, member, -, folds⟩
  · rw [same, same]
  · have ascii : rune + 0x20 < 0x80 := by omega
    have beyond : ¬rune + 0x20 ≤ 0x5A := by omega
    rw [small, caseFold, if_pos ascii, if_neg]
    intro letter
    rw [Bool.and_eq_true, decide_eq_true_eq, decide_eq_true_eq] at letter
    exact beyond letter.2
  · rw [folds, caseFold_row row member]

theorem isScalar_caseFold (scalar : Rune.IsScalar rune) : Rune.IsScalar (caseFold rune) := by
  rcases caseFold_cases rune with same | ⟨-, high, small⟩ | ⟨row, member, -, folds⟩
  · rw [same]
    exact scalar
  · rw [small]
    have low : rune + 0x20 < 0xD800 := by omega
    exact .inl low
  · rw [folds]
    exact (isScalar_row row member).2

theorem isScalar_of_caseFold_ne (changes : caseFold rune ≠ rune) : Rune.IsScalar rune := by
  rcases caseFold_cases rune with same | ⟨-, high, -⟩ | ⟨row, member, named, -⟩
  · exact absurd same changes
  · exact .inl (Nat.lt_of_le_of_lt high (by decide))
  · rw [← named]
    exact (isScalar_row row member).1

theorem caseFold_le_last (inside : rune ≤ Rune.last) : caseFold rune ≤ Rune.last := by
  by_cases same : caseFold rune = rune
  · rw [same]
    exact inside
  · exact (isScalar_caseFold (isScalar_of_caseFold_ne same)).le_last

scoped instance characterData : CharacterData where
  caseFold := caseFold
  isLetter := isLetter
  isDecimalDigit := isDecimalDigit
  isAlphanumeric rune := isLetter rune || isDecimalDigit rune
  isUpper rune := category rune == .upperLetter
  isLower rune := category rune == .lowerLetter
  isPunctuation rune := category rune == .punctuation
  isHexDigit := isHexDigit
  isWhiteSpace := isWhiteSpace
  caseFold_le_last _ := caseFold_le_last

end Repertoire

end RegexMachine
