/-! # Machine integers

Integers of a fixed width, written as mathematical integers together with
their type. Two integers of different types are compared and added only after
both were converted to a common type, and it is that conversion, not the
mathematical order, that decides whether a checked conversion succeeds. -/

namespace RegexMachine

structure IntegerType where
  width : Nat
  signed : Bool
deriving DecidableEq, Repr

namespace IntegerType

def valueCount (width : Nat) : Nat := Nat.pow 2 width

def minimum (type : IntegerType) : Int :=
  if type.signed then -(valueCount (type.width - 1)) else 0

def maximum (type : IntegerType) : Int :=
  if type.signed then valueCount (type.width - 1) - 1 else valueCount type.width - 1

/-- The value of the type that agrees with `value` modulo the number of values. -/
def wrap (type : IntegerType) (value : Int) : Int :=
  if type.signed then Int.bmod value (valueCount type.width)
  else value % (valueCount type.width)

/-- The type in which arithmetic on values of `type` takes place: types
narrower than 32 bits are widened to signed 32 bits. -/
def promoted (type : IntegerType) : IntegerType :=
  if type.width < 32 then ⟨32, true⟩ else type

/-- The type to which two operands are converted before they meet. The wider
one wins, and of two equally wide ones the unsigned one. -/
def common (left right : IntegerType) : IntegerType :=
  let left := left.promoted
  let right := right.promoted
  if left.width < right.width then right
  else if right.width < left.width then left
  else ⟨left.width, left.signed && right.signed⟩

def lessEqual (left : IntegerType) (x : Int) (right : IntegerType) (y : Int) :
    Bool :=
  let meeting := common left right
  decide (meeting.wrap x ≤ meeting.wrap y)

/-- The value converted to the type `target`, refused when it does not compare
as lying between the ends of that type. -/
def convert? (source target : IntegerType) (value : Int) : Option Int :=
  if lessEqual target target.minimum source value &&
      lessEqual source value target target.maximum then
    some (target.wrap value)
  else
    none

/-- The sum of two values of one type, refused when it exceeds the greatest
value of the type in which the sum is formed. -/
def sum? (type : IntegerType) (x y : Int) : Option Int :=
  let meeting := common type type
  if meeting.wrap (meeting.maximum - x) < meeting.wrap y then none
  else some (meeting.wrap (x + y))

end IntegerType

def withinLimits (low high value : Nat) : Option Nat :=
  if low ≤ value ∧ value ≤ high then some value else none

def word16? (value : Nat) : Option UInt16 :=
  if value < 0x10000 then some value.toUInt16 else none

def word32? (value : Nat) : Option UInt32 :=
  if value < 0x100000000 then some value.toUInt32 else none

def wordCount : Nat := 0x10000000000000000

end RegexMachine
