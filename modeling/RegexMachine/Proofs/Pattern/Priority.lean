import Mathlib.Data.List.Forall2
import RegexMachine.Proofs.Pattern.Passages
import RegexMachine.Proofs.Pattern.Returning
import RegexMachine.Rune.Repertoire

/-! # Priority

The order of alternatives and the greed of loops say which outcome comes first. They do
not say where a fragment can end: whatever is preferred, all the rest is tried as well.
So fragments that differ in nothing else accept alike, alone and with anything behind
them. This takes fragments without back references, since what a group holds does depend
on which outcome a lookaround has preferred. -/

namespace RegexMachine

namespace Fragment

/-- The other fragment is the one with its alternatives in some order and each of its
loops greedy or lazy, at any depth. -/
inductive Reorders : Fragment → Fragment → Prop
  | refl (fragment : Fragment) : Reorders fragment fragment
  | sequence {parts others : List Fragment} (each : List.Forall₂ Reorders parts others) :
      Reorders (sequence parts) (sequence others)
  | alternation {alternatives changed others : List Fragment}
      (each : List.Forall₂ Reorders alternatives changed) (order : changed.Perm others) :
      Reorders (alternation alternatives) (alternation others)
  | repetition {body other : Fragment} (greed otherGreed : Greed) (min max : UInt32)
      (inner : Reorders body other) :
      Reorders (repetition greed min max body) (repetition otherGreed min max other)
  | capture {body other : Fragment} (group : UInt16) (inner : Reorders body other) :
      Reorders (capture group body) (capture group other)
  | lookaround {body other : Fragment} (sight : Direction) (negated : Bool)
      (inner : Reorders body other) :
      Reorders (lookaround sight negated body) (lookaround sight negated other)

variable {fragment other next : Fragment} {entry : Direction} {subject : Subject}
  {test : Fragment → Prop}

/-! ## Passages of reordered fragments -/

theorem map_eq_of_forall₂ {β : Type} {relation : Fragment → Fragment → Prop}
    {value : Fragment → β} {parts others : List Fragment}
    (each : List.Forall₂ relation parts others)
    (same : ∀ part ∈ parts, ∀ other, relation part other → value part = value other) :
    parts.map value = others.map value := by
  induction each with
  | nil => rfl
  | @cons part other rest others first _ induction =>
      rcases List.forall_mem_cons.mp same with ⟨here, later⟩
      rw [List.map_cons, List.map_cons, here other first, induction later]

variable [CharacterData]

theorem passageEach_eq_map (subject : Subject) (fragments : List Fragment)
    (direction : Direction) :
    passageEach subject fragments direction =
      fragments.map fun part => part.passage subject direction := by
  induction fragments with
  | nil => rfl
  | cons part rest induction => exact congrArg (_ :: ·) induction

end Fragment

theorem Passage.choose_perm {alternatives others : List Passage}
    (order : alternatives.Perm others) :
    Passage.choose alternatives = Passage.choose others := by
  funext position landing
  apply propext
  constructor
  · intro passes
    rcases passes with ⟨alternative, member, passes⟩
    exact ⟨alternative, order.mem_iff.mp member, passes⟩
  · intro passes
    rcases passes with ⟨alternative, member, passes⟩
    exact ⟨alternative, order.mem_iff.mpr member, passes⟩

namespace Fragment.Reorders

variable {fragment other next : Fragment} {entry : Direction} {subject : Subject}

theorem unreferring (reorders : fragment.Reorders other)
    (unreferring : fragment.Throughout (·.isBackref = false)) :
    other.Throughout (·.isBackref = false) := by
  -- What is made of other parts is without back references if each of them is.
  have each {parts others : List Fragment} (same : List.Forall₂ Reorders parts others)
      (inner : ∀ part ∈ parts, ∀ other, Reorders part other →
        other.Throughout (·.isBackref = false)) :
      ∀ other ∈ others, other.Throughout (·.isBackref = false) := by
    induction same with
    | nil => exact nofun
    | @cons part other rest others first _ induction =>
        rcases List.forall_mem_cons.mp inner with ⟨here, later⟩
        exact List.forall_mem_cons.mpr ⟨here other first, induction later⟩
  induction fragment using Fragment.induct generalizing other with
  | sequence parts induction =>
      cases reorders with
      | refl => exact unreferring
      | sequence same =>
          exact throughout_sequence rfl (each same fun part member _ inner =>
            induction part member inner (unreferring.of_sequence part member))
  | alternation alternatives induction =>
      cases reorders with
      | refl => exact unreferring
      | @alternation _ changed others same order =>
          have changed := each same fun part member _ inner =>
            induction part member inner (unreferring.of_alternation part member)
          exact throughout_alternation rfl fun part member =>
            changed part (order.mem_iff.mpr member)
  | repetition greed min max body induction =>
      cases reorders with
      | refl => exact unreferring
      | repetition _ _ _ _ inner =>
          exact List.forall_mem_cons.mpr
            ⟨rfl, induction inner unreferring.of_repetition⟩
  | capture group body induction =>
      cases reorders with
      | refl => exact unreferring
      | capture _ inner =>
          exact List.forall_mem_cons.mpr ⟨rfl, induction inner unreferring.of_capture⟩
  | lookaround sight negated body induction =>
      cases reorders with
      | refl => exact unreferring
      | lookaround _ _ inner =>
          exact List.forall_mem_cons.mpr ⟨rfl, induction inner unreferring.of_lookaround⟩
  | _ =>
      cases reorders
      exact unreferring

variable [CharacterData]

theorem passage_eq (reorders : fragment.Reorders other) (direction : Direction) :
    fragment.passage subject direction = other.passage subject direction := by
  induction fragment using Fragment.induct generalizing other direction with
  | sequence parts induction =>
      cases reorders with
      | refl => rfl
      | @sequence _ others each =>
          have same : parts.map (·.passage subject direction) =
              others.map (·.passage subject direction) :=
            map_eq_of_forall₂ each fun part member other inner =>
              induction part member inner direction
          rw [passage, passage, passageEach_eq_map, passageEach_eq_map, same]
  | alternation alternatives induction =>
      cases reorders with
      | refl => rfl
      | @alternation _ changed others each order =>
          have same : alternatives.map (·.passage subject direction) =
              changed.map (·.passage subject direction) :=
            map_eq_of_forall₂ each fun part member other inner =>
              induction part member inner direction
          rw [passage, passage, passageEach_eq_map, passageEach_eq_map, same]
          exact Passage.choose_perm (order.map _)
  | repetition greed min max body induction =>
      cases reorders with
      | refl => rfl
      | repetition _ otherGreed _ _ inner =>
          rw [passage, passage, induction inner]
  | capture group body induction =>
      cases reorders with
      | refl => rfl
      | capture _ inner => exact induction inner direction
  | lookaround sight negated body induction =>
      cases reorders with
      | refl => rfl
      | lookaround _ _ inner => rw [passage, passage, induction inner]
  | _ =>
      cases reorders
      rfl

end Fragment.Reorders

/-! ## Results of reordered fragments -/

namespace Fragment

section

variable [CharacterData]

def CanEnd (fragment : Fragment) (entry : Direction) (subject : Subject)
    (start position : Nat) : Prop :=
  ∃ outcome ∈ fragment.outcomes subject entry (.opening start), outcome.position = position

def followedBy (fragment next : Fragment) : Direction → Fragment
  | .forward => .sequence [fragment, next]
  | .reverse => .sequence [next, fragment]

def AcceptsLike (fragment other : Fragment) (entry : Direction) (subject : Subject)
    (start : Nat) : Prop :=
  ∃ result otherResult, fragment.Returns entry subject start result ∧
    other.Returns entry subject start otherResult ∧
      (result.status = .accepted ∨ result.status = .noMatch) ∧
        result.status = otherResult.status

variable {fragment other next : Fragment} {entry : Direction} {subject : Subject}
  {start : Nat} {program otherProgram : Program}

theorem returns_passage (unreferring : fragment.Throughout (·.isBackref = false))
    (compiled : fragment.compile entry subject.granularity = .ok program) (start : Nat) :
    ∃ result, fragment.Returns entry subject start result ∧
      (subject.Admits start ∧ (∃ landing, fragment.passage subject entry start landing) ∧
          result.status = .accepted ∨
        ¬(subject.Admits start ∧ ∃ landing, fragment.passage subject entry start landing) ∧
          result.status = .noMatch) := by
  rcases returns_of_compile compiled start with ⟨result, returns, answers⟩
  refine ⟨result, returns, ?_⟩
  by_cases admits : subject.Admits start
  · have follows : Matcher.Follows (fragment.outcomes subject entry)
        (fragment.passage subject entry) := outcomes_follows unreferring entry
    have leads := follows.ne_nil_iff (.opening start)
    have agrees := answers.admitted admits
    cases found : fragment.outcomes subject entry (.opening start) with
    | nil =>
        rw [found] at agrees
        exact .inr ⟨fun passes => leads.mpr passes.2 found, agrees⟩
    | cons first rest =>
        rw [found] at agrees leads
        exact .inl ⟨admits, leads.mp nofun, agrees.accepted⟩
  · right
    rw [answers.refused admits]
    exact ⟨fun passes => admits passes.1, rfl⟩

theorem acceptsLike_of_passage_eq (unreferring : fragment.Throughout (·.isBackref = false))
    (otherUnreferring : other.Throughout (·.isBackref = false))
    (same : fragment.passage subject entry = other.passage subject entry)
    (compiled : fragment.compile entry subject.granularity = .ok program)
    (otherCompiled : other.compile entry subject.granularity = .ok otherProgram)
    (start : Nat) : fragment.AcceptsLike other entry subject start := by
  rcases returns_passage unreferring compiled start with ⟨result, returns, status⟩
  rcases returns_passage otherUnreferring otherCompiled start with
    ⟨otherResult, otherReturns, otherStatus⟩
  refine ⟨result, otherResult, returns, otherReturns, ?_⟩
  rw [← same] at otherStatus
  rcases status with ⟨admits, passes, accepted⟩ | ⟨missing, missed⟩
  · rcases otherStatus with ⟨-, -, otherAccepted⟩ | ⟨otherMissing, -⟩
    · exact ⟨.inl accepted, accepted.trans otherAccepted.symm⟩
    · exact absurd ⟨admits, passes⟩ otherMissing
  · rcases otherStatus with ⟨admits, passes, -⟩ | ⟨-, otherMissed⟩
    · exact absurd ⟨admits, passes⟩ missing
    · exact ⟨.inr missed, missed.trans otherMissed.symm⟩

theorem canEnd_iff_passage (unreferring : fragment.Throughout (·.isBackref = false))
    (position : Nat) :
    fragment.CanEnd entry subject start position ↔
      fragment.passage subject entry start position :=
  outcomes_follows unreferring entry (.opening start) position

omit [CharacterData] in
theorem Reorders.followedBy (reorders : fragment.Reorders other) (next : Fragment)
    (entry : Direction) :
    (fragment.followedBy next entry).Reorders (other.followedBy next entry) := by
  cases entry with
  | forward => exact .sequence (.cons reorders (.cons (.refl next) .nil))
  | reverse => exact .sequence (.cons (.refl next) (.cons reorders .nil))

omit [CharacterData] in
theorem unreferring_followedBy (unreferring : fragment.Throughout (·.isBackref = false))
    (nextUnreferring : next.Throughout (·.isBackref = false)) (entry : Direction) :
    (fragment.followedBy next entry).Throughout (·.isBackref = false) := by
  cases entry with
  | forward =>
      refine throughout_sequence rfl fun part member => ?_
      simp only [List.mem_cons, List.not_mem_nil, or_false] at member
      rcases member with rfl | rfl
      · exact unreferring
      · exact nextUnreferring
  | reverse =>
      refine throughout_sequence rfl fun part member => ?_
      simp only [List.mem_cons, List.not_mem_nil, or_false] at member
      rcases member with rfl | rfl
      · exact nextUnreferring
      · exact unreferring

/-- Neither the order of alternatives nor the greed of loops decides whether a fragment
without back references accepts from a start, nor where it can end: with whatever is
placed behind it, it accepts as before. -/
theorem acceptsLike_of_reorders (reorders : fragment.Reorders other)
    (unreferring : fragment.Throughout (·.isBackref = false))
    (compiled : fragment.compile entry subject.granularity = .ok program)
    (otherCompiled : other.compile entry subject.granularity = .ok otherProgram)
    (start : Nat) :
    fragment.AcceptsLike other entry subject start ∧
      (∀ position, fragment.CanEnd entry subject start position ↔
        other.CanEnd entry subject start position) ∧
      ∀ next program otherProgram, next.Throughout (·.isBackref = false) →
        (fragment.followedBy next entry).compile entry subject.granularity = .ok program →
          (other.followedBy next entry).compile entry subject.granularity =
              .ok otherProgram →
            (fragment.followedBy next entry).AcceptsLike (other.followedBy next entry) entry
              subject start := by
  have otherUnreferring := reorders.unreferring unreferring
  refine ⟨?_, ?_, ?_⟩
  · exact acceptsLike_of_passage_eq unreferring otherUnreferring (reorders.passage_eq entry)
      compiled otherCompiled start
  · intro position
    rw [canEnd_iff_passage unreferring, canEnd_iff_passage otherUnreferring,
      reorders.passage_eq entry]
  · intro next program otherProgram nextUnreferring followed otherFollowed
    have together := reorders.followedBy next entry
    have free := unreferring_followedBy unreferring nextUnreferring entry
    exact acceptsLike_of_passage_eq free (together.unreferring free)
      (together.passage_eq entry) followed otherFollowed start

def longestFirst : Fragment :=
  .sequence [.repetition .greedy 0 unbounded
      (.alternation [.literal #[0x61, 0x62] .none, .literal #[0x61] .none]),
    .lookaround .forward true (.literal #[0x62] .none)]

def shortestFirst : Fragment :=
  .sequence [.repetition .lazy 0 unbounded
      (.alternation [.literal #[0x61] .none, .literal #[0x61, 0x62] .none]),
    .lookaround .forward true (.literal #[0x62] .none)]

omit [CharacterData] in
theorem longestFirst_reorders : longestFirst.Reorders shortestFirst :=
  .sequence (.cons (.repetition .greedy .lazy 0 unbounded
      (.alternation (.cons (.refl _) (.cons (.refl _) .nil)) (.swap _ _ _)))
    (.cons (.refl _) .nil))

end

open scoped Repertoire in
theorem acceptsLike_longestFirst :
    longestFirst.AcceptsLike shortestFirst .forward
        (.whole (.byUnits #[0x61, 0x62, 0x61]) .codePoint) 0 ∧
      (longestFirst.followedBy (.anchored .endOfInput) .forward).AcceptsLike
        (shortestFirst.followedBy (.anchored .endOfInput) .forward) .forward
        (.whole (.byUnits #[0x61, 0x62, 0x61]) .codePoint) 0 := by
  let subject : Subject := .whole (.byUnits #[0x61, 0x62, 0x61]) .codePoint
  have unreferring : longestFirst.Throughout (·.isBackref = false) := by
    simp [longestFirst, Throughout, subfragments, subfragmentsEach, isBackref]
  have anchorUnreferring : (anchored .endOfInput).Throughout (·.isBackref = false) := by
    simp [Throughout, subfragments, isBackref]
  have compiles : ∃ program,
      longestFirst.compile .forward subject.granularity = .ok program := ⟨_, by cbv⟩
  have otherCompiles : ∃ program,
      shortestFirst.compile .forward subject.granularity = .ok program := ⟨_, by cbv⟩
  have followed : ∃ program, (longestFirst.followedBy (.anchored .endOfInput) .forward).compile
      .forward subject.granularity = .ok program := ⟨_, by cbv⟩
  have otherFollowed : ∃ program,
      (shortestFirst.followedBy (.anchored .endOfInput) .forward).compile
        .forward subject.granularity = .ok program := ⟨_, by cbv⟩
  rcases compiles with ⟨program, compiled⟩
  rcases otherCompiles with ⟨otherProgram, otherCompiled⟩
  rcases followed with ⟨longer, followed⟩
  rcases otherFollowed with ⟨otherLonger, otherFollowed⟩
  have alike := acceptsLike_of_reorders longestFirst_reorders unreferring compiled
    otherCompiled 0
  exact ⟨alike.1, alike.2.2 (.anchored .endOfInput) longer otherLonger anchorUnreferring
    followed otherFollowed⟩

end Fragment

end RegexMachine
