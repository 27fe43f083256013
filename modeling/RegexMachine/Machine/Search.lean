import RegexMachine.Machine.Processor

/-! # Search

A scan tries one start after the other, a unit further on each time, in the
direction of the program. A search is one scan from the limit that the
direction comes from, and a search for all matches scans on from each match
that it finds. -/

namespace RegexMachine

structure Scan where
  /-- The starts that were tried, the last one first. -/
  starts : List Nat
  result : Except Fault MatchResult
  processor : Processor

namespace Processor

def prepare (program : Program) (options : Options) (text : SegmentedText) :
    Except Fault (Processor × Subject) := do
  let processor ← Processor.new program options
  let subject ← options.subject text program.granularity
  return (processor, subject)

def stepOn? (processor : Processor) (subject : Subject) (position : Nat) :
    Option Nat :=
  (subject.unitAhead position processor.program.entry).map
    (·.landing processor.program.entry)

def misses : Except Fault MatchResult → Bool
  | .ok result => result.status == .noMatch
  | .error _ => false

variable [CharacterData]

def scanFrom (fuel : Nat) (subject : Subject) (direction : Direction)
    (processor : Processor) (starts : List Nat) (position : Nat) : Option Scan :=
  match processor.execute fuel subject position direction with
  | none => none
  | some (result, processor) =>
      if misses result then
        match _ahead : subject.unitAhead position direction with
        | some unit =>
            scanFrom fuel subject direction processor (position :: starts)
              (unit.landing direction)
        | none => some ⟨position :: starts, result, processor⟩
      else some ⟨position :: starts, result, processor⟩
termination_by subject.room position direction
decreasing_by exact Subject.unitAhead_room ‹_›

def scan (processor : Processor) (fuel : Nat) (subject : Subject)
    (position : Nat) : Option Scan :=
  scanFrom fuel subject processor.program.entry processor [] position

def search (processor : Processor) (fuel : Nat) (subject : Subject) :
    Option Scan :=
  processor.scan fuel subject (subject.origin processor.program.entry)

/-- Where a scan resumes after a match: at its far end, or one unit further on
if it is empty. -/
def resumption? (processor : Processor) (subject : Subject) (range : Span) :
    Option Nat :=
  let position :=
    match processor.program.entry with
    | .forward => range.last
    | .reverse => range.first
  if range.isEmpty then processor.stepOn? subject position else some position

/-- The scans that find one match after the other, the last one first, in at
most `rounds` rounds. -/
def scansFrom (fuel : Nat) (subject : Subject) :
    Nat → Processor → List Scan → Nat → Option (List Scan)
  | 0, _, _, _ => none
  | rounds + 1, processor, scans, position =>
      match processor.scan fuel subject position with
      | none => none
      | some scan =>
          match scan.result with
          | .error _ => some (scan :: scans)
          | .ok result =>
              if result.status = .accepted then
                match scan.processor.resumption? subject result.range with
                | some position =>
                    scansFrom fuel subject rounds scan.processor
                      (scan :: scans) position
                | none => some (scan :: scans)
              else some (scan :: scans)

def searchAll (processor : Processor) (fuel : Nat) (subject : Subject) :
    Option (List Scan) :=
  (scansFrom fuel subject fuel processor []
    (subject.origin processor.program.entry)).map List.reverse

end Processor

def Scan.matches : List Scan → Except Fault (List MatchResult)
  | [] => .ok []
  | scan :: rest => do
      let result ← scan.result
      let later ← Scan.matches rest
      return if result.status = .accepted then result :: later else later

end RegexMachine
