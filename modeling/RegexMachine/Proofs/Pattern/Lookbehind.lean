import RegexMachine.Proofs.Pattern.Duality
import RegexMachine.Proofs.Text.Shortening
import RegexMachine.Rune.Repertoire

/-! # Looking back

A lookaround in reverse finds its body behind the position just if the body,
matched forward from some earlier cut, ends at the position. The way there is
twofold: what is matched in reverse does not depend on the text ahead, so the
position may as well be the end of the input, and up to the end of the input
the two directions agree. -/

namespace RegexMachine

/-- From positions within the limits both passages lead to the same positions,
and those are within the limits. -/
def Subject.Agrees (subject : Subject) (there other : Passage) : Prop :=
  ∀ ⦃position⦄, subject.covers position = true → ∀ landing,
    (there position landing ↔ other position landing) ∧
      (there position landing → subject.covers landing = true)

namespace Subject.Agrees

variable {subject : Subject} {there other next following : Passage}

theorem stay : subject.Agrees Eq Eq := by
  intro position inside landing
  refine ⟨Iff.rfl, fun same => ?_⟩
  rwa [← same]

theorem comp (first : subject.Agrees there other) (rest : subject.Agrees next following) :
    subject.Agrees (Relation.Comp there next) (Relation.Comp other following) := by
  intro position inside landing
  refine ⟨⟨?_, ?_⟩, ?_⟩
  · intro passes
    obtain ⟨middle, passes, onward⟩ := passes
    have within := (first inside middle).2 passes
    exact ⟨middle, (first inside middle).1.mp passes, (rest within landing).1.mp onward⟩
  · intro passes
    obtain ⟨middle, passes, onward⟩ := passes
    have passes := (first inside middle).1.mpr passes
    have within := (first inside middle).2 passes
    exact ⟨middle, passes, (rest within landing).1.mpr onward⟩
  · intro passes
    obtain ⟨middle, passes, onward⟩ := passes
    exact (rest ((first inside middle).2 passes) landing).2 onward

theorem sequence (direction : Direction) {passages others : List Passage}
    (each : List.Forall₂ subject.Agrees passages others) :
    subject.Agrees (Passage.sequence direction passages)
      (Passage.sequence direction others) := by
  induction each with
  | nil => exact stay
  | cons first _ induction =>
      cases direction with
      | forward => exact first.comp induction
      | reverse => exact induction.comp first

theorem choose {passages others : List Passage}
    (each : List.Forall₂ subject.Agrees passages others) :
    subject.Agrees (Passage.choose passages) (Passage.choose others) := by
  intro position inside landing
  induction each with
  | nil => simp [Passage.choose]
  | cons first _ induction =>
      simp only [Passage.choose, List.mem_cons, exists_eq_or_imp] at induction ⊢
      obtain ⟨same, within⟩ := first inside landing
      refine ⟨or_congr same induction.1, fun passes => ?_⟩
      exact passes.elim within induction.2

theorem times (agrees : subject.Agrees there other) (count : Nat) :
    subject.Agrees (there.times count) (other.times count) := by
  induction count with
  | zero => exact stay
  | succ count induction => exact agrees.comp induction

theorem iterate (agrees : subject.Agrees there other) (least most : Nat) :
    subject.Agrees (Passage.iterate least most there) (Passage.iterate least most other) := by
  intro position inside landing
  refine ⟨exists_congr fun count => ?_, ?_⟩
  · rw [(agrees.times count inside landing).1]
  · intro passes
    obtain ⟨count, -, -, path⟩ := passes
    exact (agrees.times count inside landing).2 path

theorem lands {limit : Nat} {covered : subject.covers limit = true} {boundary : Bool}
    {near far : Nat → Option Nat}
    (same : ∀ position, (subject.upTo covered).covers position = true →
      near position = far position)
    (within : ∀ position landing, (subject.upTo covered).covers position = true →
      near position = some landing → (subject.upTo covered).covers landing = true) :
    (subject.upTo covered).Agrees
      (fun position => (subject.upTo covered).Lands (near position) boundary)
      (fun position => subject.Lands (far position) boundary) := by
  intro position inside landing
  refine ⟨?_, fun passes => within position landing inside passes.1⟩
  dsimp only
  rw [same position inside]
  exact Iff.rfl

end Subject.Agrees

namespace Fragment

/-- The fragment itself reads nothing but what it consumes, and nothing in it
tells the directions apart. -/
def Consuming : Fragment → Prop
  | anchored _ | lookaround _ _ _ => False
  | part => part.Reversible

theorem Consuming.reversible {fragment : Fragment} (consuming : fragment.Consuming) :
    fragment.Reversible := by
  cases fragment with
  | anchored => cases consuming
  | lookaround => cases consuming
  | _ => exact consuming

variable {subject : Subject} {fragment : Fragment} {limit : Nat}

variable [CharacterData]

/-- In reverse, a fragment that only consumes does not notice a nearer upper
limit. -/
theorem passage_upTo (covered : subject.covers limit = true)
    (codePoints : subject.granularity = .codePoint)
    (consuming : fragment.Throughout Consuming) :
    (subject.upTo covered).Agrees (fragment.passage (subject.upTo covered) .reverse)
      (fragment.passage subject .reverse) := by
  have units (test : Rune → Bool) (boundary : Bool) : (subject.upTo covered).Agrees
      (fun position => (subject.upTo covered).Lands
        ((subject.upTo covered).passUnit position .reverse test) boundary)
      (fun position => subject.Lands (subject.passUnit position .reverse test) boundary) :=
    .lands (fun _ => Subject.passUnit_upTo covered codePoints test)
      fun _ _ inside passes => (Subject.passUnit_onward passes).covers inside
  induction fragment using Fragment.induct with
  | literal text flags =>
      exact .lands (fun _ => Subject.passLiteral_upTo covered _ _)
        fun _ _ inside passes => (Subject.passLiteral_onward passes).covers inside
  | any flags => exact units _ _
  | ofClass runeClass flags negated => exact units _ _
  | ofSet ranges flags negated => exact units _ _
  | backref group flags => cases consuming.here
  | skip count =>
      exact .lands (fun _ => Subject.passUnits_upTo covered codePoints count)
        fun _ _ inside passes => (Subject.passUnits_onward inside passes).covers inside
  | anchored anchor => cases consuming.here
  | sequence parts induction =>
      exact .sequence .reverse (passageEach_forall₂ fun part member =>
        induction part member (consuming.of_sequence part member))
  | alternation alternatives induction =>
      exact .choose (passageEach_forall₂ fun alternative member =>
        induction alternative member (consuming.of_alternation alternative member))
  | repetition greed min max body induction =>
      exact (induction consuming.of_repetition).iterate _ _
  | capture group body induction => exact induction consuming.of_capture
  | lookaround sight negated body => cases consuming.here

theorem exists_passage_reverse_iff (codePoints : subject.granularity = .codePoint)
    (consuming : fragment.Throughout Consuming) (cut : subject.IsCut limit) :
    (∃ landing, fragment.passage subject .reverse limit landing) ↔
      ∃ start, subject.IsCut start ∧ start ≤ limit ∧
        ∃ landing, fragment.toEnd.passage (subject.upTo cut.covers) .forward start landing := by
  have reversible := consuming.imp fun _ => Consuming.reversible
  have shorterPoints : (subject.upTo cut.covers).granularity = .codePoint := codePoints
  have mirrors := passage_mirrors shorterPoints reversible
  have upper := (subject.upTo cut.covers).isCut_upper
  simp only [exists_passage_toEnd]
  constructor
  · intro passes
    obtain ⟨start, passes⟩ := passes
    have passes := (passage_upTo cut.covers codePoints consuming upper.covers start).1.mpr passes
    obtain ⟨landed, back⟩ := mirrors .reverse upper passes
    obtain ⟨started, below⟩ := (Subject.isCut_upTo_iff cut).mp landed
    exact ⟨start, started, below, back⟩
  · intro passes
    obtain ⟨start, started, below, passes⟩ := passes
    have started := (Subject.isCut_upTo_iff cut).mpr ⟨started, below⟩
    obtain ⟨-, back⟩ := mirrors .forward started passes
    exact ⟨start, (passage_upTo cut.covers codePoints consuming upper.covers start).1.mp back⟩

end Fragment

namespace Processor

variable {processor : Processor} {subject : Subject} {start : Nat} {fragment : Fragment}
  {entry : Direction} {granularity : Granularity}

section

variable [CharacterData]

def Accepts (processor : Processor) (subject : Subject) (start : Nat)
    (entry : Direction) : Prop :=
  ∃ fuel result after, (∀ more, fuel ≤ more →
      processor.execute more subject start entry = some (.ok result, after)) ∧
    result.status = .accepted

theorem accepts_iff
    (compiled : fragment.compile entry granularity = .ok processor.program)
    (free : processor.busy = false) (unbounded : processor.options.budget = 0)
    (admitted : (processor.attempt subject start).Admitted)
    (unreferring : fragment.Throughout (·.isBackref = false)) :
    processor.Accepts subject start entry ↔
      ∃ landing, fragment.passage subject entry start landing := by
  obtain ⟨fuel, result, after, executed, accepts⟩ :=
    execute_accepts_iff compiled free unbounded admitted unreferring
  rw [← accepts]
  constructor
  · intro accepted
    obtain ⟨other, found, ending, ran, accepted⟩ := accepted
    have same := executed (max fuel other) (Nat.le_max_left _ _)
    rw [ran _ (Nat.le_max_right _ _)] at same
    cases same
    exact accepted
  · intro accepted
    exact ⟨fuel, result, after, executed, accepted⟩

theorem execute_lookaround {sight : Direction} {negated : Bool} {body : Fragment}
    (compiled : (Fragment.lookaround sight negated body).compile entry granularity =
      .ok processor.program)
    (free : processor.busy = false) (unbounded : processor.options.budget = 0)
    (admitted : (processor.attempt subject start).Admitted)
    (unreferring : body.Throughout (·.isBackref = false)) :
    ∃ fuel result after, (∀ more, fuel ≤ more →
        processor.execute more subject start entry = some (.ok result, after)) ∧
      (result.status = .accepted ↔
        ((∃ landing, body.passage subject sight start landing) ↔ negated = false)) ∧
      (result.status = .accepted → result.range = ⟨start, start⟩) := by
  have follows : Matcher.Follows ((body.outcomes subject sight).look negated)
      (Passage.look negated (body.passage subject sight)) :=
    (Fragment.outcomes_follows unreferring sight).look negated
  obtain ⟨fuel, result, after, executed, agrees⟩ :=
    execute_compiled compiled free unbounded admitted
  refine ⟨fuel, result, after, executed, ?_⟩
  have leads := follows.ne_nil_iff (.opening start)
  have same : (Fragment.lookaround sight negated body).outcomes subject entry (.opening start) =
      (body.outcomes subject sight).look negated (.opening start) := by
    rw [Fragment.outcomes]
  rw [same] at agrees
  have found : (∃ landing, Passage.look negated (body.passage subject sight) start landing) ↔
      ((∃ landing, body.passage subject sight start landing) ↔ negated = false) := by
    simp only [Passage.look, exists_eq_left']
  rw [← found]
  cases outcomes : (body.outcomes subject sight).look negated (.opening start) with
  | nil =>
      rw [outcomes] at agrees leads
      have missed : result.status = .noMatch := agrees
      have rejected : result.status ≠ .accepted := by
        rw [missed]
        intro accepted
        cases accepted
      exact ⟨iff_of_false rejected fun passes => leads.mpr passes rfl,
        fun accepted => absurd accepted rejected⟩
  | cons first rest =>
      rw [outcomes] at agrees leads
      have passes := leads.mp (List.cons_ne_nil first rest)
      refine ⟨iff_of_true agrees.accepted passes, fun _ => ?_⟩
      have stays : start = first.position :=
        ((follows (.opening start) first.position).mp
          ⟨first, outcomes ▸ List.mem_cons_self, rfl⟩).1
      rw [MatchResult.range, agrees.whole, ← stays, min_self, max_self]
      rfl

/-- A look back accepts just if its body, matched forward from some earlier cut,
reaches the end of the input that ends here. It reports an empty range. -/
theorem execute_lookbehind_accepts_iff {ending : Processor} {position : Nat}
    (consuming : fragment.Throughout Fragment.Consuming)
    (codePoints : subject.granularity = .codePoint) (cut : subject.IsCut position)
    (compiled : (Fragment.lookaround .reverse false fragment).compile entry .codePoint =
      .ok processor.program)
    (free : processor.busy = false) (unbounded : processor.options.budget = 0)
    (endingCompiled : fragment.toEnd.compile .forward .codePoint = .ok ending.program)
    (endingFree : ending.busy = false) (endingUnbounded : ending.options.budget = 0) :
    ∃ shorter, Subject.within subject.text subject.lower position .codePoint = .ok shorter ∧
      ∃ fuel result after, (∀ more, fuel ≤ more →
          processor.execute more subject position entry = some (.ok result, after)) ∧
        (result.status = .accepted ↔
          ∃ start, subject.IsCut start ∧ start ≤ position ∧
            ending.Accepts shorter start .forward) ∧
        (result.status = .accepted → result.range = ⟨position, position⟩) := by
  have unreferring := consuming.imp fun _ part => part.reversible.isBackref
  have within := Subject.within_upTo cut.covers
  rw [codePoints] at within
  obtain ⟨fuel, result, after, executed, accepts, range⟩ :=
    execute_lookaround compiled free unbounded
      (admitted_of_codePoints compiled codePoints cut.covers) unreferring
  refine ⟨_, within, fuel, result, after, executed, ?_, range⟩
  rw [accepts, iff_true_right rfl, Fragment.exists_passage_reverse_iff codePoints consuming cut]
  refine exists_congr fun start => and_congr_right fun started => and_congr_right fun below => ?_
  have started := (Subject.isCut_upTo_iff cut).mpr ⟨started, below⟩
  have shorterPoints : (subject.upTo cut.covers).granularity = .codePoint := codePoints
  rw [accepts_iff endingCompiled endingFree endingUnbounded
    (admitted_of_codePoints endingCompiled shorterPoints started.covers)
    (Fragment.unreferring_toEnd unreferring)]

def trailingLetter : Fragment :=
  .sequence [.literal #[0x61] .caseless,
    .repetition .lazy 0 Fragment.unbounded (.any .none)]

omit [CharacterData] in
theorem consuming_trailingLetter : trailingLetter.Throughout Fragment.Consuming := by
  have letter : Octets.WellFormed #[0x61] := ⟨[0x61], rfl⟩
  have anywhere : MatchFlags.caseless.has .boundary = false := rfl
  have plain : MatchFlags.none.has .boundary = false := rfl
  simp [trailingLetter, Fragment.Throughout, Fragment.subfragments, Fragment.subfragmentsEach,
    Fragment.Consuming, Fragment.Reversible, letter, anywhere, plain]

def trailingLooker : Processor where
  program := ((Fragment.lookaround .reverse false trailingLetter).compile .forward
    .codePoint).toOption.getD {}
  options := {}

def trailingRunner : Processor where
  program := (trailingLetter.toEnd.compile .forward .codePoint).toOption.getD {}
  options := {}

end

open scoped Repertoire in
theorem trailingLooker_accepts_iff :
    ∃ shorter,
      Subject.within (.byUnits #[0x41, 0xC3, 0xA9, 0x62]) 0 3 .codePoint = .ok shorter ∧
      ∃ fuel result after,
        trailingLooker.execute fuel (.whole (.byUnits #[0x41, 0xC3, 0xA9, 0x62]) .codePoint) 3
          .forward = some (.ok result, after) ∧
        (result.status = .accepted ↔ ∃ start,
          (Subject.whole (.byUnits #[0x41, 0xC3, 0xA9, 0x62]) .codePoint).IsCut start ∧
            start ≤ 3 ∧ trailingRunner.Accepts shorter start .forward) := by
  have compiled : (Fragment.lookaround .reverse false trailingLetter).compile .forward
      .codePoint = .ok trailingLooker.program := by
    cbv
  have endingCompiled : trailingLetter.toEnd.compile .forward .codePoint =
      .ok trailingRunner.program := by
    cbv
  have codePoints : (Subject.whole (.byUnits #[0x41, 0xC3, 0xA9, 0x62])
      .codePoint).granularity = .codePoint := rfl
  have cut : (Subject.whole (.byUnits #[0x41, 0xC3, 0xA9, 0x62]) .codePoint).IsCut 3 :=
    ((Octets.IsCut.opening (by decide)).next (by decide)).next (by decide)
  obtain ⟨shorter, within, fuel, result, after, executed, accepts, -⟩ :=
    execute_lookbehind_accepts_iff consuming_trailingLetter codePoints cut compiled rfl rfl
      endingCompiled rfl rfl
  exact ⟨shorter, within, fuel, result, after, executed fuel (Nat.le_refl _), accepts⟩

end Processor

end RegexMachine
