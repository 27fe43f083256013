import RegexMachine.Proofs.Pattern.Encoding
import RegexMachine.Proofs.Pattern.Outcomes
import RegexMachine.Proofs.Pattern.Parts

/-! # Where fragments lie in a program

A fragment is placed between two addresses of a program if the instructions
between them are those of the fragment, with their labels bound and their
operands in the pools. The counters of the fragment are not below `floor`. -/

namespace RegexMachine

namespace Fragment

variable [CharacterData]

mutual

def Placed (program : Program) : Fragment → Direction → (first last floor : Nat) → Prop
  | literal text flags, direction, first, last, _ =>
      last = first + 1 ∧ ∃ offset length slice,
        program.instructions[first]? = some (.matchString direction offset length
          (flags.has .caseless) (flags.has .boundary)) ∧
        program.literal? offset length = some slice ∧
          slice.toOctets = wanted text (flags.has .caseless)
  | any flags, direction, first, last, _ =>
      last = first + 1 ∧ program.instructions[first]? =
        some (.matchAny direction (flags.has .newline) (flags.has .boundary))
  | ofClass runeClass flags negated, direction, first, last, _ =>
      last = first + 1 ∧ program.instructions[first]? =
        some (.matchClass direction runeClass negated (flags.has .boundary))
  | ofSet ranges flags negated, direction, first, last, _ =>
      last = first + 1 ∧ ∃ index set,
        program.instructions[first]? = some (.matchSet direction index negated
          (flags.has .caseless) (flags.has .boundary)) ∧
        program.runeSets[index.toNat]? = some set ∧
          Encoder.gatherRanges ranges (flags.has .caseless) = .ok set
  | backref group flags, direction, first, last, _ =>
      last = first + 1 ∧ program.instructions[first]? =
        some (.matchBackref direction group (flags.has .caseless) (flags.has .boundary))
  | skip count, direction, first, last, _ =>
      last = first + 1 ∧ ∃ word : UInt32, word.toNat = count ∧
        program.instructions[first]? = some (.advance direction word)
  | anchored anchor, _, first, last, _ =>
      last = first + 1 ∧ program.instructions[first]? = some (.assertAnchor anchor)
  | sequence parts, direction, first, last, floor =>
      PlacedRow program parts direction first last floor
  | alternation [], _, first, last, _ =>
      last = first + 1 ∧ program.instructions[first]? = some .fail
  | alternation (alternative :: rest), direction, first, last, floor =>
      PlacedChoice program (alternative :: rest) direction first
        (first + rest.length + 1) last floor
  | repetition greed min max body, direction, first, last, floor =>
      ∃ counter done back middle,
        floor ≤ counter.toNat ∧ last = middle + 1 ∧
          program.instructions[first]? = some (.repeatStart counter) ∧
          program.instructions[first + 1]? = some (.quantify greed min max counter done) ∧
          program.target? done = some last ∧
          Placed program body direction (first + 2) middle (counter.toNat + 1) ∧
          program.instructions[middle]? = some (.repeatEnd counter back) ∧
          program.target? back = some (first + 1)
  | capture group body, .forward, first, last, floor =>
      ∃ middle, last = middle + 1 ∧
        program.instructions[first]? = some (.beginCapture group) ∧
          Placed program body .forward (first + 1) middle floor ∧
            program.instructions[middle]? = some (.endCapture group)
  | capture group body, .reverse, first, last, floor =>
      ∃ middle, last = middle + 1 ∧
        program.instructions[first]? = some (.endCapture group) ∧
          Placed program body .reverse (first + 1) middle floor ∧
            program.instructions[middle]? = some (.beginCapture group)
  | lookaround sight true body, _, first, last, floor =>
      ∃ done middle, last = middle + 2 ∧
        program.instructions[first]? = some (.save done) ∧
          program.target? done = some last ∧
            Placed program body sight (first + 1) middle floor ∧
              program.instructions[middle]? = some (.clearThrough done false) ∧
                program.instructions[middle + 1]? = some .fail
  | lookaround sight false body, _, first, last, floor =>
      ∃ failure done middle, last = middle + 3 ∧
        program.instructions[first]? = some (.save failure) ∧
          program.target? failure = some (middle + 2) ∧
            Placed program body sight (first + 1) middle floor ∧
              program.instructions[middle]? = some (.clearThrough failure true) ∧
                program.instructions[middle + 1]? = some (.jump done) ∧
                  program.target? done = some last ∧
                    program.instructions[middle + 2]? = some .fail

def PlacedRow (program : Program) :
    List Fragment → Direction → (first last floor : Nat) → Prop
  | [], _, first, last, _ => last = first
  | part :: rest, .forward, first, last, floor =>
      ∃ middle, Placed program part .forward first middle floor ∧
        PlacedRow program rest .forward middle last floor
  | part :: rest, .reverse, first, last, floor =>
      ∃ middle, PlacedRow program rest .reverse first middle floor ∧
        Placed program part .reverse middle last floor

/-- The alternatives follow each other from `first` on, and all of them lead
to `last`. From `entry` on they are offered one after the other. -/
def PlacedChoice (program : Program) :
    List Fragment → Direction → (entry first last floor : Nat) → Prop
  | [], _, _, _, _, _ => False
  | alternative :: rest, direction, entry, first, last, floor =>
      ∃ target middle, program.target? target = some first ∧
        Placed program alternative direction first middle floor ∧
          match rest with
          | [] => program.instructions[entry]? = some (.jump target) ∧ last = middle
          | _ :: _ =>
              program.instructions[entry]? = some (.branch target) ∧
                (∃ done, program.instructions[middle]? = some (.jump done) ∧
                  program.target? done = some last) ∧
                  PlacedChoice program rest direction (entry + 1) (middle + 1) last floor

end

end Fragment

end RegexMachine
