import RegexMachine.Bisection
import RegexMachine.Fault
import RegexMachine.Rune.Basic

/-! # Sets of runes

A set is a row of closed intervals. Intervals are pushed in any order, and
normalising sorts them and joins those that overlap or touch. Membership is
decided by bisection, so it means membership only for a normalised set. -/

namespace RegexMachine

/-- The runes from `first` to `last`, both included. -/
structure Interval where
  first : Rune
  last : Rune
deriving DecidableEq, Repr

namespace Interval

def contains (interval : Interval) (rune : Rune) : Bool :=
  interval.first ≤ rune && rune ≤ interval.last

def ascends (left right : Interval) : Bool :=
  left.first < right.first ||
    (left.first == right.first && left.last ≤ right.last)

end Interval

structure RuneSet where
  intervals : Array Interval
deriving DecidableEq, Repr

namespace RuneSet

def empty : RuneSet := ⟨#[]⟩

instance : Inhabited RuneSet := ⟨empty⟩

/-- Add an interval at the end of the row. Its last rune is cut at the last
code point; its first one is kept as it is. -/
def push (set : RuneSet) (first last : Rune) : Except Fault RuneSet :=
  if last < first then .error .characterRange
  else .ok ⟨set.intervals.push ⟨first, min last Rune.last⟩⟩

/-- What the runes of an interval are folded to where that differs from them, in the
order of those runes. -/
def newFoldings (fold : Rune → Rune) (first last : Rune) : List Rune :=
  (List.range' first (min last Rune.last + 1 - first)).filterMap fun (rune : Rune) =>
    if fold rune = rune then none else some (fold rune)

def pushFolded (set : RuneSet) (first last : Rune) (fold : Rune → Rune) :
    Except Fault RuneSet := do
  let set ← set.push first last
  return ⟨(newFoldings fold first last).foldl
    (fun intervals rune => intervals.push ⟨rune, rune⟩) set.intervals⟩

/-- Join `current` with the intervals that follow it as long as they overlap
or touch, and begin anew at the first gap. -/
def join (current : Interval) : List Interval → List Interval
  | [] => [current]
  | next :: rest =>
      if next.first ≤ current.last + 1 then
        join ⟨current.first, max current.last next.last⟩ rest
      else
        current :: join next rest

def joinAll : List Interval → List Interval
  | [] => []
  | current :: rest => join current rest

def normalize (set : RuneSet) : RuneSet :=
  ⟨(joinAll (set.intervals.toList.mergeSort Interval.ascends)).toArray⟩

def contains (set : RuneSet) (rune : Rune) : Bool :=
  set.intervals[frontLength set.intervals (·.last < rune)]?.any (·.contains rune)

end RuneSet

end RegexMachine
