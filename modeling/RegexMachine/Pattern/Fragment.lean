import RegexMachine.Pattern.Encoder

/-! # Fragments

A fragment is a pattern as a tree. Emitting a fragment encodes its parts in
the order in which the direction meets them, and compiling it adds the final
acceptance. -/

namespace RegexMachine

inductive Fragment where
  | literal (text : Octets) (flags : MatchFlags)
  | any (flags : MatchFlags)
  | ofClass (runeClass : RuneClass) (flags : MatchFlags) (negated : Bool)
  | ofSet (ranges : List Interval) (flags : MatchFlags) (negated : Bool)
  | backref (group : UInt16) (flags : MatchFlags)
  | skip (count : Nat)
  | anchored (anchor : Anchor)
  | sequence (parts : List Fragment)
  /-- One of several alternatives, the first preferred. -/
  | alternation (alternatives : List Fragment)
  /-- From `min` to `max` iterations of a body. -/
  | repetition (greed : Greed) (min max : UInt32) (body : Fragment)
  | capture (group : UInt16) (body : Fragment)
  /-- A position from which a body matches, or does not, in the direction of
  `sight`. -/
  | lookaround (sight : Direction) (negated : Bool) (body : Fragment)

instance : Inhabited Fragment := ⟨.sequence []⟩

namespace Fragment

/-- The number of iterations that stands for no bound. -/
def unbounded : UInt32 := 0xFFFFFFFF

variable [CharacterData]

mutual

def emit : Fragment → Emitter
  | literal text flags => fun direction =>
      discard (Encoder.matchString text direction flags)
  | any flags => fun direction => discard (Encoder.matchAny direction flags)
  | ofClass runeClass flags negated => fun direction =>
      discard (Encoder.matchClass runeClass direction flags negated)
  | ofSet ranges flags negated => fun direction =>
      discard (Encoder.matchSet ranges direction flags negated)
  | backref group flags => fun direction =>
      discard (Encoder.matchBackref group direction flags)
  | skip count => fun direction => discard (Encoder.advance count direction)
  | anchored anchor => fun _ => discard (Encoder.append (.assertAnchor anchor))
  | sequence parts => Encoder.sequence (emitters parts)
  | alternation alternatives => Encoder.alternation (emitters alternatives)
  | repetition greed min max body => Encoder.repetition greed min max body.emit
  | capture group body => Encoder.capture group body.emit
  | lookaround sight negated body => fun _ =>
      Encoder.lookaround sight negated body.emit

def emitters : List Fragment → List Emitter
  | [] => []
  | fragment :: rest => fragment.emit :: emitters rest

end

def encode (fragment : Fragment) (entry : Direction) : Encode Unit := do
  fragment.emit entry
  discard (Encoder.append .accept)

def compile (fragment : Fragment) (entry : Direction)
    (granularity : Granularity) : Except Fault Program :=
  let encoding : Encode Program := do
    fragment.encode entry
    Encoder.finish
  match encoding (.new entry granularity) with
  | .ok program _ => .ok program
  | .error fault _ => .error fault

end Fragment

end RegexMachine
