import RegexMachine.Rune.Basic

/-! # Properties of runes

How runes fold and what classes they are in is settled by a library of character
data and not here: its functions are a parameter of all that asks for them. -/

namespace RegexMachine

/-- The functions of a library of character data. -/
class CharacterData where
  /-- Simple case folding: one rune for one rune, whatever the language. -/
  caseFold : Rune → Rune
  isLetter : Rune → Bool
  isDecimalDigit : Rune → Bool
  isAlphanumeric : Rune → Bool
  isUpper : Rune → Bool
  isLower : Rune → Bool
  isPunctuation : Rune → Bool
  isHexDigit : Rune → Bool
  isWhiteSpace : Rune → Bool
  /-- Folding stays in the code space. -/
  caseFold_le_last : ∀ rune ≤ Rune.last, caseFold rune ≤ Rune.last

variable [CharacterData]

namespace Rune

def caseFold (rune : Rune) : Rune := CharacterData.caseFold rune

theorem caseFold_le_last : ∀ rune ≤ last, caseFold rune ≤ last :=
  CharacterData.caseFold_le_last

/-- Whether the rune is part of a word: a low line, a letter or a digit. -/
def isWord (rune : Rune) : Bool := rune == 0x5F || CharacterData.isAlphanumeric rune

end Rune

inductive RuneClass where
  | digit
  | word
  | space
  | alpha
  | alnum
  | upper
  | lower
  | punct
  | xdigit
  | newline
deriving DecidableEq, Repr

namespace RuneClass

def contains (runeClass : RuneClass) (rune : Rune) : Bool :=
  match runeClass with
  | digit => CharacterData.isDecimalDigit rune
  | word => rune.isWord
  | space => CharacterData.isWhiteSpace rune
  | alpha => CharacterData.isLetter rune
  | alnum => CharacterData.isAlphanumeric rune
  | upper => CharacterData.isUpper rune
  | lower => CharacterData.isLower rune
  | punct => CharacterData.isPunctuation rune
  | xdigit => CharacterData.isHexDigit rune
  | newline => rune.isLineTerminator

end RuneClass

end RegexMachine
