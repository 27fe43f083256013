/-! # Directions and other small vocabularies -/

namespace RegexMachine

inductive Direction where
  | forward
  | reverse
deriving DecidableEq, Repr

namespace Direction

def opposite : Direction → Direction
  | forward => reverse
  | reverse => forward

def name : Direction → String
  | forward => "forward"
  | reverse => "reverse"

end Direction

/-- What counts as one unit of the text. -/
inductive Granularity where
  /-- A code point, or one octet that belongs to none. -/
  | codePoint
  /-- A grapheme cluster. -/
  | grapheme
deriving DecidableEq, Repr

inductive Greed where
  | greedy
  | lazy
deriving DecidableEq, Repr

inductive Anchor where
  | startOfInput
  | endOfInput
  | startOfLine
  | endOfLine
  | wordBoundary
  | notWordBoundary
deriving DecidableEq, Repr

structure MatchFlags where
  bits : UInt8
deriving DecidableEq, Repr

namespace MatchFlags

def none : MatchFlags := ⟨0⟩

def caseless : MatchFlags := ⟨1⟩

/-- Land on cluster boundaries only. -/
def boundary : MatchFlags := ⟨2⟩

/-- Let any unit be a line terminator. -/
def newline : MatchFlags := ⟨4⟩

instance : Complement MatchFlags := ⟨fun flags => ⟨~~~flags.bits⟩⟩
instance : AndOp MatchFlags := ⟨fun left right => ⟨left.bits &&& right.bits⟩⟩
instance : OrOp MatchFlags := ⟨fun left right => ⟨left.bits ||| right.bits⟩⟩

def any (flags : MatchFlags) : Bool := flags.bits != 0

def has (flags wanted : MatchFlags) : Bool := (flags &&& wanted).any

end MatchFlags

end RegexMachine
