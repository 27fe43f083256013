import RegexMachine.Proofs.Pattern.Compilation
import RegexMachine.Proofs.Pattern.Passages
import RegexMachine.Proofs.Text.Reversal
import RegexMachine.Rune.Repertoire

/-! # Matching in the opposite direction

Among code points, what a fragment matches in one direction it matches in the
other, from the landing back to the position. The sequence of parts is turned
around, and so is the sequence of iterations of a loop; a lookaround looks in
its own direction either way. -/

namespace RegexMachine

namespace Subject.Mirrors

variable {subject : Subject} {there back next previous : Passage}

theorem stay : subject.Mirrors Eq Eq := by
  intro position _ cut same
  subst same
  exact ⟨cut, rfl⟩

theorem comp (mirrors : subject.Mirrors there back) (onward : subject.Mirrors next previous) :
    subject.Mirrors (Relation.Comp there next) (Relation.Comp previous back) := by
  intro position landing cut passage
  rcases passage with ⟨middle, first, rest⟩
  rcases mirrors cut first with ⟨between, returns⟩
  rcases onward between rest with ⟨landed, begins⟩
  exact ⟨landed, middle, begins, returns⟩

theorem sequence (direction : Direction) {passages others : List Passage}
    (each : List.Forall₂ subject.Mirrors passages others) :
    subject.Mirrors (Passage.sequence direction passages)
      (Passage.sequence direction.opposite others) := by
  induction each with
  | nil => exact stay
  | cons first _ induction =>
      cases direction with
      | forward => exact first.comp induction
      | reverse => exact induction.comp first

theorem choose {passages others : List Passage}
    (each : List.Forall₂ subject.Mirrors passages others) :
    subject.Mirrors (Passage.choose passages) (Passage.choose others) := by
  intro position landing cut passes
  rcases passes with ⟨passage, member, passes⟩
  induction each with
  | nil => cases member
  | cons first _ induction =>
      rcases List.mem_cons.mp member with rfl | member
      · rcases first cut passes with ⟨landed, returns⟩
        exact ⟨landed, _, List.mem_cons_self, returns⟩
      · rcases induction member with ⟨landed, other, among, returns⟩
        exact ⟨landed, other, List.mem_cons_of_mem _ among, returns⟩

theorem times (mirrors : subject.Mirrors there back) (count : Nat) :
    subject.Mirrors (there.times count) (back.times count) := by
  induction count with
  | zero => exact stay
  | succ count induction =>
      rw [Passage.times_succ back]
      exact mirrors.comp induction

theorem iterate (mirrors : subject.Mirrors there back) (least most : Nat) :
    subject.Mirrors (Passage.iterate least most there) (Passage.iterate least most back) := by
  intro position landing cut passage
  rcases passage with ⟨count, enough, bounded, path⟩
  rcases mirrors.times count cut path with ⟨landed, returns⟩
  exact ⟨landed, count, enough, bounded, returns⟩

theorem look (negated : Bool) (body : Passage) :
    subject.Mirrors (Passage.look negated body) (Passage.look negated body) := by
  intro position _ cut passage
  rcases passage with ⟨rfl, seen⟩
  exact ⟨cut, rfl, seen⟩

theorem lands {ahead behind : Nat → Option Nat} {boundary : Bool}
    (mirrors : subject.Mirrors (ahead · = some ·) (behind · = some ·))
    (codePoints : subject.granularity = .codePoint) (anywhere : boundary = false) :
    subject.Mirrors (fun position => subject.Lands (ahead position) boundary)
      (fun position => subject.Lands (behind position) boundary) := by
  intro position landing cut passage
  rcases passage with ⟨passes, -⟩
  rcases mirrors cut passes with ⟨landed, returns⟩
  refine ⟨landed, returns, ?_⟩
  rw [anywhere, codePoints]
  rfl

end Subject.Mirrors

namespace Fragment

/-- Nothing in the fragment itself tells the directions apart: it asks for no
boundary and no group, and its octets are well formed. -/
def Reversible : Fragment → Prop
  | literal text flags => text.WellFormed ∧ flags.has .boundary = false
  | any flags => flags.has .boundary = false
  | ofClass _ flags _ => flags.has .boundary = false
  | ofSet _ flags _ => flags.has .boundary = false
  | backref _ _ => False
  | _ => True

variable {subject : Subject} {fragment : Fragment}

theorem Reversible.isBackref (reversible : fragment.Reversible) :
    fragment.isBackref = false := by
  cases fragment with
  | backref => cases reversible
  | _ => rfl

variable [CharacterData]

theorem wellFormed_wanted {text : Octets} (formed : text.WellFormed) (caseless : Bool) :
    (wanted text caseless).WellFormed := by
  cases caseless with
  | false => exact formed
  | true => exact .foldCase text Rune.caseFold

theorem passage_mirrors (codePoints : subject.granularity = .codePoint)
    (reversible : fragment.Throughout Reversible) :
    ∀ direction, subject.Mirrors (fragment.passage subject direction)
      (fragment.passage subject direction.opposite) := by
  induction fragment using Fragment.induct with
  | literal text flags =>
      rcases reversible.here with ⟨formed, anywhere⟩
      exact fun direction => .lands (Subject.passLiteral_mirrors
        (wellFormed_wanted formed _) direction _) codePoints anywhere
  | any flags =>
      exact fun direction => .lands (Subject.passUnit_mirrors codePoints direction _)
        codePoints reversible.here
  | ofClass runeClass flags negated =>
      exact fun direction => .lands (Subject.passUnit_mirrors codePoints direction _)
        codePoints reversible.here
  | ofSet ranges flags negated =>
      exact fun direction => .lands (Subject.passUnit_mirrors codePoints direction _)
        codePoints reversible.here
  | backref group flags => cases reversible.here
  | skip count =>
      exact fun direction => .lands (Subject.passUnits_mirrors codePoints direction count)
        codePoints rfl
  | anchored anchor =>
      intro direction position _ cut passage
      rcases passage with ⟨rfl, holds⟩
      exact ⟨cut, rfl, holds⟩
  | sequence parts induction =>
      exact fun direction => .sequence direction (passageEach_forall₂ fun part member =>
        induction part member (reversible.of_sequence part member) direction)
  | alternation alternatives induction =>
      exact fun direction => .choose (passageEach_forall₂ fun alternative member =>
        induction alternative member (reversible.of_alternation alternative member) direction)
  | repetition greed min max body induction =>
      exact fun direction => (induction reversible.of_repetition direction).iterate _ _
  | capture group body induction =>
      exact fun direction => induction reversible.of_capture direction
  | lookaround sight negated body => exact fun _ => .look negated _

def toEnd (fragment : Fragment) : Fragment := .sequence [fragment, .anchored .endOfInput]

def fromStart (fragment : Fragment) : Fragment := .sequence [.anchored .startOfInput, fragment]

omit [CharacterData] in
theorem unreferring_toEnd (unreferring : fragment.Throughout (·.isBackref = false)) :
    fragment.toEnd.Throughout (·.isBackref = false) := by
  refine throughout_sequence rfl fun part member => ?_
  simp only [List.mem_cons, List.not_mem_nil, or_false] at member
  rcases member with rfl | rfl
  · exact unreferring
  · simp [Throughout, subfragments, isBackref]

omit [CharacterData] in
theorem unreferring_fromStart (unreferring : fragment.Throughout (·.isBackref = false)) :
    fragment.fromStart.Throughout (·.isBackref = false) := by
  refine throughout_sequence rfl fun part member => ?_
  simp only [List.mem_cons, List.not_mem_nil, or_false] at member
  rcases member with rfl | rfl
  · simp [Throughout, subfragments, isBackref]
  · exact unreferring

theorem exists_passage_toEnd {position : Nat} :
    (∃ landing, fragment.toEnd.passage subject .forward position landing) ↔
      fragment.passage subject .forward position subject.upper := by
  simp [toEnd, passage, passageEach, Passage.sequence, Relation.Comp, Subject.anchorHolds]

theorem exists_passage_fromStart {position : Nat} :
    (∃ landing, fragment.fromStart.passage subject .reverse position landing) ↔
      fragment.passage subject .reverse position subject.lower := by
  simp [fromStart, passage, passageEach, Passage.sequence, Relation.Comp, Subject.anchorHolds]

end Fragment

namespace Processor

section

variable [CharacterData]

theorem admitted_of_codePoints {processor : Processor} {subject : Subject} {start : Nat}
    {fragment : Fragment} {entry : Direction}
    (compiled : fragment.compile entry .codePoint = .ok processor.program)
    (codePoints : subject.granularity = .codePoint) (covered : subject.covers start = true) :
    (processor.attempt subject start).Admitted where
  granularity := codePoints.trans (Fragment.compiles compiled).granularity.symm
  covered := covered
  boundary clusters := by
    rw [show subject.granularity = .grapheme from clusters] at codePoints
    cases codePoints

/-- A fragment matches the whole input forward just if it matches it in
reverse. -/
theorem execute_toEnd_accepts_iff {processor mirrored : Processor} {subject : Subject}
    {fragment : Fragment} (reversible : fragment.Throughout Fragment.Reversible)
    (codePoints : subject.granularity = .codePoint)
    (compiled : fragment.toEnd.compile .forward .codePoint = .ok processor.program)
    (free : processor.busy = false) (unbounded : processor.options.budget = 0)
    (mirroredCompiled : fragment.fromStart.compile .reverse .codePoint = .ok mirrored.program)
    (mirroredFree : mirrored.busy = false) (mirroredUnbounded : mirrored.options.budget = 0) :
    ∃ fuel result after mirroredResult mirroredAfter,
      (∀ more, fuel ≤ more → processor.execute more subject subject.lower .forward =
        some (.ok result, after)) ∧
      (∀ more, fuel ≤ more → mirrored.execute more subject subject.upper .reverse =
        some (.ok mirroredResult, mirroredAfter)) ∧
      (result.status = .accepted ↔ mirroredResult.status = .accepted) := by
  have lower := subject.isCut_lower
  have upper := subject.isCut_upper
  have unreferring := reversible.imp fun _ => Fragment.Reversible.isBackref
  rcases execute_accepts_iff compiled free
      unbounded (admitted_of_codePoints compiled codePoints lower.covers)
      (Fragment.unreferring_toEnd unreferring) with
    ⟨fuel, result, after, executed, accepts⟩
  rcases execute_accepts_iff mirroredCompiled mirroredFree mirroredUnbounded
      (admitted_of_codePoints mirroredCompiled codePoints upper.covers)
      (Fragment.unreferring_fromStart unreferring) with
    ⟨mirroredFuel, mirroredResult, mirroredAfter, mirroredExecuted, mirroredAccepts⟩
  refine ⟨max fuel mirroredFuel, result, after, mirroredResult, mirroredAfter,
    fun more enough => executed more (by omega),
    fun more enough => mirroredExecuted more (by omega), ?_⟩
  rw [accepts, mirroredAccepts, Fragment.exists_passage_toEnd,
    Fragment.exists_passage_fromStart]
  have mirrors := Fragment.passage_mirrors codePoints reversible
  exact ⟨fun passes => (mirrors .forward lower passes).2,
    fun passes => (mirrors .reverse upper passes).2⟩

def groupedRun : Fragment :=
  .sequence [.capture 1 (.repetition .lazy 0 Fragment.unbounded (.literal #[0x61] .none)),
    .lookaround .reverse false (.literal #[0x61] .none)]

omit [CharacterData] in
theorem reversible_groupedRun : groupedRun.Throughout Fragment.Reversible := by
  have letter : Octets.WellFormed #[0x61] := ⟨[0x61], rfl⟩
  have anywhere : MatchFlags.none.has .boundary = false := rfl
  simp [groupedRun, Fragment.Throughout, Fragment.subfragments, Fragment.subfragmentsEach,
    Fragment.Reversible, letter, anywhere]

def groupedRunner : Processor where
  program := (groupedRun.toEnd.compile .forward .codePoint).toOption.getD {}
  options := {}

def mirroredRunner : Processor where
  program := (groupedRun.fromStart.compile .reverse .codePoint).toOption.getD {}
  options := {}

end

open scoped Repertoire in
theorem groupedRunner_accepts_iff :
    ∃ fuel result after mirroredResult mirroredAfter,
      groupedRunner.execute fuel (.whole (.byUnits #[0x61, 0x61]) .codePoint) 0 .forward =
        some (.ok result, after) ∧
      mirroredRunner.execute fuel (.whole (.byUnits #[0x61, 0x61]) .codePoint) 2 .reverse =
        some (.ok mirroredResult, mirroredAfter) ∧
      (result.status = .accepted ↔ mirroredResult.status = .accepted) := by
  have compiled : groupedRun.toEnd.compile .forward .codePoint =
      .ok groupedRunner.program := by
    cbv
  have mirroredCompiled : groupedRun.fromStart.compile .reverse .codePoint =
      .ok mirroredRunner.program := by
    cbv
  have codePoints : (Subject.whole (.byUnits #[0x61, 0x61]) .codePoint).granularity =
      .codePoint := rfl
  rcases execute_toEnd_accepts_iff reversible_groupedRun codePoints compiled rfl rfl
      mirroredCompiled rfl rfl with
    ⟨fuel, result, after, mirroredResult, mirroredAfter, executed, mirrored, accepts⟩
  exact ⟨fuel, result, after, mirroredResult, mirroredAfter, executed fuel (Nat.le_refl _),
    mirrored fuel (Nat.le_refl _), accepts⟩

end Processor

end RegexMachine
