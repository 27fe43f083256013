import RegexMachine.Text.Utf8
import RegexMachine.Rune.Basic
import RegexMachine.Direction

/-! # Octet texts and their units

A text is a sequence of octets that may be ill formed. Within any range of
positions it is cut into units: a well-formed sequence is one unit, and an
octet that belongs to none is a unit of its own which reads as the
replacement. -/

namespace RegexMachine

abbrev Octets := Array UInt8

/-- A stretch of a text, which is read in place. -/
structure Slice where
  octets : Octets
  first : Nat
  last : Nat
deriving DecidableEq, Repr

namespace Slice

def size (slice : Slice) : Nat := slice.last - slice.first

def toOctets (slice : Slice) : Octets :=
  slice.octets.extract slice.first slice.last

end Slice

/-- One unit of a text: the rune it begins with and the positions between
which it lies. -/
structure TextUnit where
  rune : Rune
  first : Nat
  last : Nat
deriving DecidableEq, Repr

namespace TextUnit

def landing (unit : TextUnit) : Direction → Nat
  | .forward => unit.last
  | .reverse => unit.first

end TextUnit

namespace Octets

def all (text : Octets) : Slice := ⟨text, 0, text.size⟩

def agrees (text other : Octets) : (count position start : Nat) → Bool
  | 0, _, _ => true
  | count + 1, position, start =>
      text[position]? == other[start]? &&
        text.agrees other count (position + 1) (start + 1)

/-- The octets of the range that a sequence starting at `first` can take up. -/
def window (text : Octets) (first last : Nat) : List UInt8 :=
  (text.extract first (min last (first + 4))).toList

/-- The first octet of the range, standing alone. An empty range has an empty
unit. -/
def strayFrom (first last : Nat) : TextUnit :=
  ⟨Rune.replacement, first, if first < last then first + 1 else first⟩

def strayBefore (first last : Nat) : TextUnit :=
  ⟨Rune.replacement, if first < last then last - 1 else last, last⟩

def unitFrom (text : Octets) (first last : Nat) : TextUnit :=
  match Utf8.decode? (text.window first last) with
  | some (rune, length) => ⟨rune, first, first + length⟩
  | none => strayFrom first last

/-- How far before `last` the nearest lead octet lies, among the octets of the
range that a sequence ending at `last` can take up. -/
def leadBefore? (text : Octets) (first last : Nat) : Option Nat :=
  [1, 2, 3, 4].find? fun distance =>
    distance ≤ last - first && text[last - distance]?.any Utf8.isLead

/-- The unit that ends at `last` and starts at `first` or after. The nearest
lead octet starts it if its sequence ends exactly at `last`; otherwise the
last octet stands alone. -/
def unitBefore (text : Octets) (first last : Nat) : TextUnit :=
  match text.leadBefore? first last with
  | none => strayBefore first last
  | some distance =>
      if (text.unitFrom (last - distance) last).last = last then
        text.unitFrom (last - distance) last
      else strayBefore first last

theorem unitFrom_first (text : Octets) (first last : Nat) :
    (text.unitFrom first last).first = first := by
  unfold unitFrom
  split <;> rfl

theorem lt_unitFrom_last (text : Octets) {first last : Nat}
    (nonempty : first < last) : first < (text.unitFrom first last).last := by
  unfold unitFrom
  split
  · next rune length decoded =>
      have := Utf8.decode?_length_pos decoded
      simp only
      omega
  · simp [strayFrom, nonempty]

theorem leadBefore?_bounds {text : Octets} {first last distance : Nat}
    (found : text.leadBefore? first last = some distance) :
    0 < distance ∧ distance ≤ last - first := by
  have holds := List.find?_some found
  have member := List.mem_of_find?_eq_some found
  simp only [Bool.and_eq_true, decide_eq_true_eq] at holds
  refine ⟨?_, holds.1⟩
  simp only [List.mem_cons, List.not_mem_nil, or_false] at member
  omega

theorem strayBefore_first_lt {first last : Nat} (nonempty : first < last) :
    (strayBefore first last).first < last := by
  simp only [strayBefore, nonempty, if_true]
  omega

theorem le_strayBefore_first {first last : Nat} (ordered : first ≤ last) :
    first ≤ (strayBefore first last).first := by
  simp only [strayBefore]
  split <;> omega

theorem unitBefore_first_lt (text : Octets) {first last : Nat}
    (nonempty : first < last) : (text.unitBefore first last).first < last := by
  unfold unitBefore
  split
  · exact strayBefore_first_lt nonempty
  · next distance found =>
      have bounds := leadBefore?_bounds found
      split
      · rw [unitFrom_first]
        omega
      · exact strayBefore_first_lt nonempty

theorem le_unitBefore_first (text : Octets) {first last : Nat}
    (ordered : first ≤ last) : first ≤ (text.unitBefore first last).first := by
  unfold unitBefore
  split
  · exact le_strayBefore_first ordered
  · next distance found =>
      have bounds := leadBefore?_bounds found
      split
      · rw [unitFrom_first]
        omega
      · exact le_strayBefore_first ordered

def units (text : Octets) (first last : Nat) : List TextUnit :=
  if first < last then
    text.unitFrom first last ::
      text.units (text.unitFrom first last).last last
  else []
termination_by last - first
decreasing_by
  have := text.lt_unitFrom_last ‹first < last›
  omega

/-- The units of a range from its last to its first, found by looking back. -/
def unitsBackward (text : Octets) (first last : Nat) : List TextUnit :=
  if first < last then
    text.unitBefore first last ::
      text.unitsBackward first (text.unitBefore first last).first
  else []
termination_by last - first
decreasing_by
  have := text.unitBefore_first_lt ‹first < last›
  omega

def unitCount (text : Octets) (first last : Nat) : Nat :=
  (text.units first last).length

def foldCase (text : Octets) (fold : Rune → Rune) : Octets :=
  ((text.units 0 text.size).flatMap fun unit => Utf8.encode (fold unit.rune)).toArray

end Octets

end RegexMachine
