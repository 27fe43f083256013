import RegexMachine.Capture.Table
import RegexMachine.Pattern.Fragment
import RegexMachine.Proofs.Pattern.Ranges
import RegexMachine.Text.Subject

/-! # Outcomes of a fragment

What a fragment means, without a machine that runs it: from a position and
the ends of the groups it leads to a list of outcomes, the preferred one
first. An outcome is where the fragment has ended and what the groups hold by
then. -/

namespace RegexMachine

@[ext] structure Outcome where
  position : Nat
  starts : Nat → Option Nat
  ends : Nat → Option Nat

namespace Outcome

def opening (position : Nat) : Outcome := ⟨position, fun _ => none, fun _ => none⟩

def setStart (here : Outcome) (group : Nat) : Outcome :=
  { here with
    starts := fun other => if other = group then some here.position else here.starts other }

def setEnd (here : Outcome) (group : Nat) : Outcome :=
  { here with
    ends := fun other => if other = group then some here.position else here.ends other }

def spanOf (here : Outcome) (group : Nat) : Option Span :=
  match here.starts group, here.ends group with
  | some first, some last => if first ≤ last then some ⟨first, last⟩ else none
  | _, _ => none

def arrive (here : Outcome) (subject : Subject) (next : Option Nat) (boundary : Bool) :
    List Outcome :=
  match next with
  | none => []
  | some position =>
      if (boundary || subject.granularity == .grapheme) &&
          !subject.isBoundary position then []
      else [{ here with position }]

end Outcome

/-- All outcomes in the order of preference. -/
abbrev Matcher := Outcome → List Outcome

namespace Matcher

def chain (first second : Matcher) : Matcher := fun here =>
  (first here).flatMap second

def sequence (direction : Direction) : List Matcher → Matcher
  | [] => fun here => [here]
  | part :: rest =>
      match direction with
      | .forward => part.chain (sequence direction rest)
      | .reverse => (sequence direction rest).chain part

def choose (alternatives : List Matcher) : Matcher := fun here =>
  alternatives.flatMap (· here)

/-- What is left of a loop after so many iterations. Those below `min` are
owed whether they move or not; any later one has to move. -/
def iterate (greed : Greed) (min max : Nat) (body : Matcher) (count : Nat)
    (here : Outcome) : List Outcome :=
  if count < min then (body here).flatMap (iterate greed min max body (count + 1))
  else if max ≤ count then [here]
  else
    let again := (body here).flatMap fun next =>
      if next.position = here.position then []
      else iterate greed min max body (count + 1) next
    match greed with
    | .greedy => again ++ [here]
    | .lazy => here :: again
termination_by min + max - count

def capture (group : Nat) (body : Matcher) : Direction → Matcher
  | .forward => fun here => (body (here.setStart group)).map (·.setEnd group)
  | .reverse => fun here => (body (here.setEnd group)).map (·.setStart group)

/-- Stay at the position if the body matches, with the groups of its preferred
outcome, or, negated, if it does not match. -/
def look (negated : Bool) (body : Matcher) : Matcher := fun here =>
  match body here, negated with
  | [], true => [here]
  | [], false => []
  | _ :: _, true => []
  | first :: _, false => [{ first with position := here.position }]

end Matcher

namespace Fragment

variable [CharacterData]

def wanted (text : Octets) (caseless : Bool) : Octets :=
  if caseless then text.foldCase Rune.caseFold else text

/-- Whether one of the ranges brings the rune or, without case, what it folds to. -/
def takes (ranges : List Interval) (caseless : Bool) (rune : Rune) : Bool :=
  ranges.any (·.brings caseless (if caseless then rune.caseFold else rune))

mutual

def outcomes (subject : Subject) : Fragment → Direction → Matcher
  | literal text flags, direction => fun here =>
      here.arrive subject
        (subject.passLiteral here.position (wanted text (flags.has .caseless)).all
          direction (flags.has .caseless))
        (flags.has .boundary)
  | any flags, direction => fun here =>
      here.arrive subject
        (subject.passUnit here.position direction fun rune =>
          flags.has .newline || !rune.isLineTerminator)
        (flags.has .boundary)
  | ofClass runeClass flags negated, direction => fun here =>
      here.arrive subject
        (subject.passUnit here.position direction fun rune =>
          runeClass.contains rune != negated)
        (flags.has .boundary)
  | ofSet ranges flags negated, direction => fun here =>
      here.arrive subject
        (subject.passUnit here.position direction fun rune =>
          takes ranges (flags.has .caseless) rune != negated)
        (flags.has .boundary)
  | backref group flags, direction => fun here =>
      match here.spanOf group.toNat with
      | none => [here]
      | some span =>
          here.arrive subject
            (subject.passLiteral here.position ⟨subject.text.octets, span.first, span.last⟩
              direction (flags.has .caseless))
            (flags.has .boundary)
  | skip count, direction => fun here =>
      here.arrive subject (subject.passUnits direction count here.position) false
  | anchored anchor, _ => fun here =>
      if subject.anchorHolds here.position anchor then [here] else []
  | sequence parts, direction =>
      Matcher.sequence direction (outcomesEach subject parts direction)
  | alternation alternatives, direction =>
      Matcher.choose (outcomesEach subject alternatives direction)
  | repetition greed min max body, direction =>
      Matcher.iterate greed min.toNat max.toNat (outcomes subject body direction) 0
  | capture group body, direction =>
      Matcher.capture group.toNat (outcomes subject body direction) direction
  | lookaround sight negated body, _ =>
      Matcher.look negated (outcomes subject body sight)

def outcomesEach (subject : Subject) : List Fragment → Direction → List Matcher
  | [], _ => []
  | fragment :: rest, direction =>
      outcomes subject fragment direction :: outcomesEach subject rest direction

end

end Fragment

end RegexMachine
