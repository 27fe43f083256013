import RegexMachine.Rune.Basic

/-! # UTF-8, one rune at a time

Sequences are decoded by an automaton that is given by two tables. It takes one
octet after the other, is in its accepting state again where a sequence ends,
and in its rejecting state as soon as no sequence begins with the octets so far.
The encoder cuts a rune into groups of six bits and knows nothing of the
tables. -/

namespace RegexMachine

namespace Utf8

/-- Whether the octet can begin a sequence: all do that are not marked as
continuing one. -/
def isLead (octet : UInt8) : Bool :=
  octet.toNat < 0x80 || 0xC0 ≤ octet.toNat

/-! ## The automaton -/

/-- The class of every octet, in the row of its high half and the column of its low
half. Where an octet begins a sequence, its class is also how many of its high
bits are cut off to leave the bits of the rune. -/
def classes : Array (Array Nat) := #[
  #[0, 0, 0, 0, 0, 0, 0, 0, 0, 0, 0, 0, 0, 0, 0, 0],
  #[0, 0, 0, 0, 0, 0, 0, 0, 0, 0, 0, 0, 0, 0, 0, 0],
  #[0, 0, 0, 0, 0, 0, 0, 0, 0, 0, 0, 0, 0, 0, 0, 0],
  #[0, 0, 0, 0, 0, 0, 0, 0, 0, 0, 0, 0, 0, 0, 0, 0],
  #[0, 0, 0, 0, 0, 0, 0, 0, 0, 0, 0, 0, 0, 0, 0, 0],
  #[0, 0, 0, 0, 0, 0, 0, 0, 0, 0, 0, 0, 0, 0, 0, 0],
  #[0, 0, 0, 0, 0, 0, 0, 0, 0, 0, 0, 0, 0, 0, 0, 0],
  #[0, 0, 0, 0, 0, 0, 0, 0, 0, 0, 0, 0, 0, 0, 0, 0],
  #[1, 1, 1, 1, 1, 1, 1, 1, 1, 1, 1, 1, 1, 1, 1, 1],
  #[9, 9, 9, 9, 9, 9, 9, 9, 9, 9, 9, 9, 9, 9, 9, 9],
  #[7, 7, 7, 7, 7, 7, 7, 7, 7, 7, 7, 7, 7, 7, 7, 7],
  #[7, 7, 7, 7, 7, 7, 7, 7, 7, 7, 7, 7, 7, 7, 7, 7],
  #[8, 8, 2, 2, 2, 2, 2, 2, 2, 2, 2, 2, 2, 2, 2, 2],
  #[2, 2, 2, 2, 2, 2, 2, 2, 2, 2, 2, 2, 2, 2, 2, 2],
  #[10, 3, 3, 3, 3, 3, 3, 3, 3, 3, 3, 3, 3, 4, 3, 3],
  #[11, 6, 6, 6, 5, 8, 8, 8, 8, 8, 8, 8, 8, 8, 8, 8]]

/-- The successors of every state, one row for each state and in it one column
for each class. A state is the number of entries before its row. -/
def successors : Array (Array Nat) := #[
  #[0, 12, 24, 36, 60, 96, 84, 12, 12, 12, 48, 72],
  #[12, 12, 12, 12, 12, 12, 12, 12, 12, 12, 12, 12],
  #[12, 0, 12, 12, 12, 12, 12, 0, 12, 0, 12, 12],
  #[12, 24, 12, 12, 12, 12, 12, 24, 12, 24, 12, 12],
  #[12, 12, 12, 12, 12, 12, 12, 24, 12, 12, 12, 12],
  #[12, 24, 12, 12, 12, 12, 12, 12, 12, 24, 12, 12],
  #[12, 12, 12, 12, 12, 12, 12, 36, 12, 36, 12, 12],
  #[12, 36, 12, 12, 12, 12, 12, 36, 12, 36, 12, 12],
  #[12, 36, 12, 12, 12, 12, 12, 12, 12, 12, 12, 12]]

/-- The state between two sequences. -/
def accepting : Nat := 0

def rejecting : Nat := 12

def classOf (octet : UInt8) : Nat :=
  (classes.getD (octet.toNat / 16) #[]).getD (octet.toNat % 16) 8

def successorBy (state column : Nat) : Nat :=
  (successors.getD (state / 12) #[]).getD column rejecting

def successor (state : Nat) (octet : UInt8) : Nat :=
  successorBy state (classOf octet)

def absorb (state : Nat) (bits : Rune) (octet : UInt8) : Rune :=
  if state = accepting then octet.toNat &&& (0xFF >>> classOf octet)
  else (octet.toNat &&& 0x3F) ||| (bits <<< 6)

/-- Let the automaton run on until it accepts or rejects. The octets that it
has taken are counted. -/
def decodeFrom (state : Nat) (bits : Rune) (count : Nat) :
    List UInt8 → Option (Rune × Nat)
  | [] => none
  | octet :: rest =>
      let bits := absorb state bits octet
      let state := successor state octet
      if state = accepting then some (bits, count + 1)
      else if state = rejecting then none
      else decodeFrom state bits (count + 1) rest

def decode? (list : List UInt8) : Option (Rune × Nat) :=
  decodeFrom accepting 0 0 list

/-! ## The encoder -/

def length (rune : Rune) : Nat :=
  if rune < 0x80 then 1
  else if rune < 0x800 then 2
  else if rune < 0x10000 then 3
  else 4

/-- The lowest `count` groups of six bits, one to an octet. The first octet has
the bits of `mark` besides, the others are marked as continuing. -/
def groups (rune : Rune) (mark : Nat) : Nat → List UInt8
  | 0 => []
  | count + 1 =>
      UInt8.ofNat (((rune >>> (6 * count)) &&& 0x3F) ||| mark) ::
        groups rune 0x80 count

def leadMark (count : Nat) : Nat := (0xF0 <<< (4 - count)) &&& 0xF0

def replacementOctets : List UInt8 := [0xEF, 0xBF, 0xBD]

/-- The encoding of a rune. What is no scalar value is encoded as the
replacement. -/
def encode (rune : Rune) : List UInt8 :=
  if rune < 0x80 then [UInt8.ofNat rune]
  else if 0x110000 ≤ rune ∨ rune &&& 0xFFFFF800 = 0xD800 then replacementOctets
  else groups rune (leadMark (length rune)) (length rune)

theorem lt_of_decodeFrom {list : List UInt8} {state count total : Nat}
    {bits rune : Rune} (decoded : decodeFrom state bits count list = some (rune, total)) :
    count < total := by
  induction list generalizing state bits count with
  | nil => simp [decodeFrom] at decoded
  | cons octet rest induction =>
      simp only [decodeFrom] at decoded
      split at decoded
      · simp only [Option.some.injEq, Prod.mk.injEq] at decoded
        omega
      · split at decoded
        · simp at decoded
        · have := induction decoded
          omega

theorem decode?_length_pos {list : List UInt8} {rune : Rune} {count : Nat}
    (decoded : decode? list = some (rune, count)) : 0 < count :=
  lt_of_decodeFrom decoded

end Utf8

end RegexMachine
