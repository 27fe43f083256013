import RegexMachine.Fault
import RegexMachine.Integer
import RegexMachine.Text.Octets

/-! # Spans and capture tables

A capture table answers for each group of a match where it lies in the text.
Group zero is the whole match. -/

namespace RegexMachine

structure Span where
  first : Nat
  last : Nat
deriving DecidableEq, Repr

namespace Span

/-- The number of octets, in the arithmetic of words: a span whose ends are
reversed is very long. -/
def size (span : Span) : Nat :=
  (span.last + wordCount - span.first) % wordCount

def isEmpty (span : Span) : Bool := span.first == span.last

end Span

structure CaptureTable where
  groups : Array (Option Span)
deriving DecidableEq, Repr

namespace CaptureTable

def empty : CaptureTable := ⟨#[]⟩

instance : Inhabited CaptureTable := ⟨empty⟩

def ofSize (size : Nat) : CaptureTable := ⟨Array.replicate size none⟩

def size (table : CaptureTable) : Nat := table.groups.size

def has (table : CaptureTable) (group : Nat) : Bool :=
  (table.groups[group]?.join).isSome

def span (table : CaptureTable) (group : Nat) : Except Fault (Option Span) :=
  match table.groups[group]? with
  | some span => .ok span
  | none => .error .outsideTable

def assign (table : CaptureTable) (group : Nat) (span : Option Span) :
    Except Fault CaptureTable :=
  if group < table.groups.size then
    .ok ⟨table.groups.setIfInBounds group span⟩
  else .error .outsideTable

/-- The octets of a group. An unset group has none, and a span that begins
beyond the text is refused. -/
def content (table : CaptureTable) (text : Octets) (group : Nat) :
    Except Fault Octets := do
  match ← table.span group with
  | none => return #[]
  | some span =>
      if text.size < span.first then throw .outsideTable
      return text.extract span.first (span.first + span.size)

end CaptureTable

end RegexMachine
