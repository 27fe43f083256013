import RegexMachine.Fault
import RegexMachine.Rune.Property
import RegexMachine.Text.Segmented

/-! # Subjects

A subject is a text to be matched between two limits, in units of one
granularity. Everything the machine reads of a text it reads through these
operations, and none of them answers a position outside of the limits. -/

namespace RegexMachine

structure Subject where
  text : SegmentedText
  lower : Nat
  upper : Nat
  granularity : Granularity
  lower_le_upper : lower ≤ upper
  upper_le_size : upper ≤ text.size

namespace Subject

def within (text : SegmentedText) (lower upper : Nat)
    (granularity : Granularity) : Except Fault Subject :=
  if valid : lower ≤ upper ∧ upper ≤ text.size then
    .ok ⟨text, lower, upper, granularity, valid.1, valid.2⟩
  else .error .subjectRange

def whole (text : SegmentedText) (granularity : Granularity) : Subject :=
  ⟨text, 0, text.size, granularity, Nat.zero_le _, Nat.le_refl _⟩

def covers (subject : Subject) (position : Nat) : Bool :=
  subject.lower ≤ position && position ≤ subject.upper

def isBoundary (subject : Subject) (position : Nat) : Bool :=
  subject.text.isBoundary position

def origin (subject : Subject) : Direction → Nat
  | .forward => subject.lower
  | .reverse => subject.upper

def room (subject : Subject) (position : Nat) : Direction → Nat
  | .forward => subject.upper - position
  | .reverse => position - subject.lower

def codePointAhead (subject : Subject) (position : Nat) (direction : Direction) :
    Option TextUnit :=
  if subject.covers position then
    match direction with
    | .forward =>
        if position = subject.upper then none
        else some (subject.text.octets.unitFrom position subject.upper)
    | .reverse =>
        if position = subject.lower then none
        else some (subject.text.octets.unitBefore subject.lower position)
  else none

def clusterBetween (subject : Subject) (first last : Nat) : TextUnit :=
  ⟨(subject.text.octets.unitFrom first last).rune, first, last⟩

def clusterAhead (subject : Subject) (position : Nat) (direction : Direction) :
    Option TextUnit :=
  if subject.covers position then
    match direction with
    | .forward =>
        (subject.text.boundaryAfter? subject.upper position).map fun last =>
          subject.clusterBetween position last
    | .reverse =>
        (subject.text.boundaryBefore? subject.lower position).map fun first =>
          subject.clusterBetween first position
  else none

def unitAhead (subject : Subject) (position : Nat) (direction : Direction) :
    Option TextUnit :=
  match subject.granularity with
  | .codePoint => subject.codePointAhead position direction
  | .grapheme => subject.clusterAhead position direction

def passUnit (subject : Subject) (position : Nat) (direction : Direction)
    (test : Rune → Bool) : Option Nat :=
  ((subject.unitAhead position direction).filter (test ·.rune)).map
    (·.landing direction)

def passUnits (subject : Subject) (direction : Direction) :
    Nat → Nat → Option Nat
  | 0, position => some position
  | count + 1, position => do
      let unit ← subject.unitAhead position direction
      subject.passUnits direction count (unit.landing direction)

def passExact (subject : Subject) (position : Nat) (literal : Slice)
    (direction : Direction) : Option Nat :=
  if subject.covers position ∧
      literal.size ≤ subject.room position direction then
    let start :=
      match direction with
      | .forward => position
      | .reverse => position - literal.size
    if subject.text.octets.agrees literal.octets literal.size start
        literal.first then
      match direction with
      | .forward => some (position + literal.size)
      | .reverse => some start
    else none
  else none

def sees (subject : Subject) (position : Nat) (direction : Direction)
    (test : Rune → Bool) : Bool :=
  (subject.codePointAhead position direction).any fun unit => test unit.rune

theorem codePointAhead_room {subject : Subject} {position : Nat}
    {direction : Direction} {unit : TextUnit}
    (found : subject.codePointAhead position direction = some unit) :
    subject.room (unit.landing direction) direction <
      subject.room position direction := by
  simp only [codePointAhead, covers, Bool.and_eq_true, decide_eq_true_eq] at found
  split at found
  · cases direction with
    | forward =>
        simp only at found
        split at found
        · simp at found
        · have ahead : position < subject.upper := by omega
          have := subject.text.octets.lt_unitFrom_last ahead
          simp only [Option.some.injEq] at found
          subst found
          simp only [TextUnit.landing, room]
          omega
    | reverse =>
        simp only at found
        split at found
        · simp at found
        · have behind : subject.lower < position := by omega
          have := subject.text.octets.unitBefore_first_lt behind
          simp only [Option.some.injEq] at found
          subst found
          simp only [TextUnit.landing, room]
          omega
  · simp at found

theorem clusterAhead_room {subject : Subject} {position : Nat}
    {direction : Direction} {unit : TextUnit}
    (found : subject.clusterAhead position direction = some unit) :
    subject.room (unit.landing direction) direction <
      subject.room position direction := by
  simp only [clusterAhead] at found
  split at found
  · cases direction with
    | forward =>
        simp only [Option.map_eq_some_iff] at found
        rcases found with ⟨last, next, rfl⟩
        have := SegmentedText.boundaryAfter?_eq_some_iff.mp next
        simp only [clusterBetween, TextUnit.landing, room]
        omega
    | reverse =>
        simp only [Option.map_eq_some_iff] at found
        rcases found with ⟨first, previous, rfl⟩
        have := SegmentedText.boundaryBefore?_eq_some_iff.mp previous
        simp only [clusterBetween, TextUnit.landing, room]
        omega
  · simp at found

/-- Every step over a unit leaves less room ahead. -/
theorem unitAhead_room {subject : Subject} {position : Nat} {direction : Direction}
    {unit : TextUnit} (found : subject.unitAhead position direction = some unit) :
    subject.room (unit.landing direction) direction <
      subject.room position direction := by
  unfold unitAhead at found
  split at found
  · exact codePointAhead_room found
  · exact clusterAhead_room found

/-! ## Comparison by character data -/

variable [CharacterData]

/-- Compare the foldings of code points, those of the literal being the ones
between `first` and `last`. -/
def passFolded (subject : Subject) (literal : Octets)
    (direction : Direction) (position first last : Nat) : Option Nat :=
  if first < last then
    match direction with
    | .forward =>
        let wanted := literal.unitFrom first last
        match subject.codePointAhead position .forward with
        | some unit =>
            if unit.rune.caseFold = wanted.rune.caseFold then
              subject.passFolded literal .forward unit.last wanted.last last
            else none
        | none => none
    | .reverse =>
        let wanted := literal.unitBefore first last
        match subject.codePointAhead position .reverse with
        | some unit =>
            if unit.rune.caseFold = wanted.rune.caseFold then
              subject.passFolded literal .reverse unit.first first wanted.first
            else none
        | none => none
  else some position
termination_by last - first
decreasing_by
  · have := literal.lt_unitFrom_last ‹first < last›
    omega
  · have := literal.unitBefore_first_lt ‹first < last›
    omega

/-- Compare a literal with the text ahead of the position, and answer the
position behind it. Without case, it is the foldings of code points that are
compared. -/
def passLiteral (subject : Subject) (position : Nat) (literal : Slice)
    (direction : Direction) (caseless : Bool) : Option Nat :=
  if caseless then
    if subject.covers position then
      subject.passFolded literal.octets direction position literal.first
        literal.last
    else none
  else subject.passExact position literal direction

def atWordBoundary (subject : Subject) (position : Nat) : Bool :=
  subject.sees position .reverse Rune.isWord !=
    subject.sees position .forward Rune.isWord

/-- Whether an anchor holds at the position. The limits count as the ends of
the input and as ends of lines. -/
def anchorHolds (subject : Subject) (position : Nat) : Anchor → Bool
  | .startOfInput => position == subject.lower
  | .endOfInput => position == subject.upper
  | .startOfLine =>
      position == subject.lower ||
        subject.sees position .reverse Rune.isLineTerminator
  | .endOfLine =>
      position == subject.upper ||
        subject.sees position .forward Rune.isLineTerminator
  | .wordBoundary => subject.atWordBoundary position
  | .notWordBoundary => !subject.atWordBoundary position

end Subject

end RegexMachine
