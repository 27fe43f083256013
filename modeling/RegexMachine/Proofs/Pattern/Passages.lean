import Mathlib.Data.List.Forall2
import Mathlib.Logic.Relation
import RegexMachine.Proofs.Pattern.Compilation
import RegexMachine.Proofs.Pattern.Parts

/-! # Passages of a fragment

The positions to which a fragment leads from a position, with neither the
groups nor the order of preference. Of a fragment without back references they
are the positions of its outcomes. At this level a loop may go on without
moving: an iteration that does not move can be left out. -/

namespace RegexMachine

abbrev Passage := Nat → Nat → Prop

namespace Passage

def sequence (direction : Direction) : List Passage → Passage
  | [] => Eq
  | part :: rest =>
      match direction with
      | .forward => Relation.Comp part (sequence direction rest)
      | .reverse => Relation.Comp (sequence direction rest) part

def choose (alternatives : List Passage) : Passage := fun position landing =>
  ∃ alternative ∈ alternatives, alternative position landing

def times (body : Passage) : Nat → Passage
  | 0 => Eq
  | count + 1 => Relation.Comp body (times body count)

def iterate (least most : Nat) (body : Passage) : Passage := fun position landing =>
  ∃ count, least ≤ count ∧ count ≤ max least most ∧ body.times count position landing

theorem times_succ (body : Passage) (count : Nat) :
    body.times (count + 1) = Relation.Comp (body.times count) body := by
  induction count with
  | zero => exact Relation.comp_eq.trans Relation.eq_comp.symm
  | succ count induction =>
      calc body.times (count + 2)
          = Relation.Comp body (Relation.Comp (body.times count) body) := by
            rw [times, induction]
        _ = Relation.Comp (body.times (count + 1)) body := Relation.comp_assoc.symm

/-- Of the iterations of a loop those that do not move can be left out. -/
theorem exists_times_iff_moves (body : Passage) (bound position landing : Nat) :
    (∃ count, count ≤ bound + 1 ∧ body.times count position landing) ↔
      position = landing ∨ ∃ next, body position next ∧ next ≠ position ∧
        ∃ count, count ≤ bound ∧ body.times count next landing := by
  constructor
  · intro passage
    rcases passage with ⟨count, enough, path⟩
    induction count with
    | zero => exact .inl path
    | succ count induction =>
        rcases path with ⟨next, first, rest⟩
        by_cases moved : next = position
        · subst moved
          exact induction (by omega) rest
        · exact .inr ⟨next, first, moved, count, by omega, rest⟩
  · intro passage
    rcases passage with rfl | ⟨next, first, -, count, enough, rest⟩
    · exact ⟨0, by omega, rfl⟩
    · exact ⟨count + 1, by omega, next, first, rest⟩

def look (negated : Bool) (body : Passage) : Passage := fun position landing =>
  position = landing ∧ ((∃ other, body position other) ↔ negated = false)

end Passage

def Subject.Lands (subject : Subject) (next : Option Nat) (boundary : Bool)
    (landing : Nat) : Prop :=
  next = some landing ∧
    ((boundary || subject.granularity == .grapheme) && !subject.isBoundary landing) = false

namespace Fragment

variable [CharacterData]

mutual

/-- The passage of a fragment. A back reference is left out: where it leads
depends on what its group holds. -/
def passage (subject : Subject) : Fragment → Direction → Passage
  | literal text flags, direction => fun position =>
      subject.Lands
        (subject.passLiteral position (wanted text (flags.has .caseless)).all
          direction (flags.has .caseless))
        (flags.has .boundary)
  | any flags, direction => fun position =>
      subject.Lands
        (subject.passUnit position direction fun rune =>
          flags.has .newline || !rune.isLineTerminator)
        (flags.has .boundary)
  | ofClass runeClass flags negated, direction => fun position =>
      subject.Lands
        (subject.passUnit position direction fun rune =>
          runeClass.contains rune != negated)
        (flags.has .boundary)
  | ofSet ranges flags negated, direction => fun position =>
      subject.Lands
        (subject.passUnit position direction fun rune =>
          takes ranges (flags.has .caseless) rune != negated)
        (flags.has .boundary)
  | backref _ _, _ => fun _ _ => False
  | skip count, direction => fun position =>
      subject.Lands (subject.passUnits direction count position) false
  | anchored anchor, _ => fun position landing =>
      position = landing ∧ subject.anchorHolds position anchor = true
  | sequence parts, direction =>
      Passage.sequence direction (passageEach subject parts direction)
  | alternation alternatives, direction =>
      Passage.choose (passageEach subject alternatives direction)
  | repetition _ min max body, direction =>
      Passage.iterate min.toNat max.toNat (passage subject body direction)
  | capture _ body, direction => passage subject body direction
  | lookaround sight negated body, _ => Passage.look negated (passage subject body sight)

def passageEach (subject : Subject) : List Fragment → Direction → List Passage
  | [], _ => []
  | fragment :: rest, direction =>
      passage subject fragment direction :: passageEach subject rest direction

end

theorem passageEach_forall₂ {relation : Passage → Passage → Prop} {subject other : Subject}
    {direction turned : Direction} {fragments : List Fragment}
    (each : ∀ part ∈ fragments,
      relation (part.passage subject direction) (part.passage other turned)) :
    List.Forall₂ relation (passageEach subject fragments direction)
      (passageEach other fragments turned) := by
  induction fragments with
  | nil => exact .nil
  | cons fragment rest induction =>
      obtain ⟨first, others⟩ := List.forall_mem_cons.mp each
      exact .cons first (induction others)

end Fragment

/-- The matcher has an outcome at just those positions to which the passage
leads, whatever the groups hold. -/
def Matcher.Follows (matcher : Matcher) (passage : Passage) : Prop :=
  ∀ here landing, (∃ outcome ∈ matcher here, outcome.position = landing) ↔
    passage here.position landing

theorem Outcome.exists_mem_arrive {here : Outcome} {subject : Subject} {next : Option Nat}
    {boundary : Bool} {landing : Nat} :
    (∃ outcome ∈ here.arrive subject next boundary, outcome.position = landing) ↔
      subject.Lands next boundary landing := by
  unfold Outcome.arrive Subject.Lands
  cases next with
  | none => simp
  | some position =>
      dsimp only
      split
      · next stopped =>
          refine iff_of_false (by simp) ?_
          intro passage
          rcases passage with ⟨⟨⟩, stays⟩
          rw [stopped] at stays
          cases stays
      · next passed =>
          simp only [List.mem_singleton, exists_eq_left, Option.some.injEq]
          constructor
          · intro same
            subst same
            exact ⟨rfl, by simpa using passed⟩
          · exact And.left

namespace Matcher.Follows

variable {matcher second : Matcher} {passage next : Passage}

theorem ne_nil_iff (follows : matcher.Follows passage) (here : Outcome) :
    matcher here ≠ [] ↔ ∃ landing, passage here.position landing := by
  simp only [← follows here]
  constructor
  · intro some
    rcases List.exists_mem_of_ne_nil _ some with ⟨outcome, member⟩
    exact ⟨_, outcome, member, rfl⟩
  · intro found
    rcases found with ⟨_, outcome, member, -⟩
    exact List.ne_nil_of_mem member

theorem stay : Matcher.Follows (fun here => [here]) Eq := by
  intro here landing
  simp

theorem chain (follows : matcher.Follows passage) (onward : second.Follows next) :
    (matcher.chain second).Follows (Relation.Comp passage next) := by
  intro here landing
  simp only [Matcher.chain, List.mem_flatMap]
  constructor
  · intro found
    rcases found with ⟨outcome, ⟨middle, member, later⟩, ends⟩
    exact ⟨middle.position, (follows here _).mp ⟨middle, member, rfl⟩,
      (onward middle landing).mp ⟨outcome, later, ends⟩⟩
  · intro passage
    rcases passage with ⟨position, passes, rest⟩
    rcases (follows here position).mpr passes with ⟨middle, member, rfl⟩
    rcases (onward middle landing).mpr rest with ⟨outcome, later, ends⟩
    exact ⟨outcome, ⟨middle, member, later⟩, ends⟩

theorem sequence (direction : Direction) {parts : List Matcher} {passages : List Passage}
    (each : List.Forall₂ Matcher.Follows parts passages) :
    (Matcher.sequence direction parts).Follows (Passage.sequence direction passages) := by
  induction each with
  | nil => exact stay
  | cons first _ induction =>
      cases direction with
      | forward => exact first.chain induction
      | reverse => exact induction.chain first

theorem choose {alternatives : List Matcher} {passages : List Passage}
    (each : List.Forall₂ Matcher.Follows alternatives passages) :
    (Matcher.choose alternatives).Follows (Passage.choose passages) := by
  intro here landing
  induction each with
  | nil => simp [Matcher.choose, Passage.choose]
  | cons first _ induction =>
      simp only [Matcher.choose, Passage.choose, List.flatMap_cons, List.mem_append,
        List.mem_cons, or_and_right, exists_or, exists_eq_left] at induction ⊢
      exact or_congr (first here landing) induction

theorem capture (follows : matcher.Follows passage) (group : Nat) (direction : Direction) :
    (Matcher.capture group matcher direction).Follows passage := by
  intro here landing
  cases direction with
  | forward =>
      simp only [Matcher.capture, List.mem_map, exists_exists_and_eq_and]
      exact follows (here.setStart group) landing
  | reverse =>
      simp only [Matcher.capture, List.mem_map, exists_exists_and_eq_and]
      exact follows (here.setEnd group) landing

theorem look (follows : matcher.Follows passage) (negated : Bool) :
    (Matcher.look negated matcher).Follows (Passage.look negated passage) := by
  intro here landing
  have found := follows.ne_nil_iff here
  unfold Matcher.look Passage.look
  rw [← found]
  cases matcher here <;> cases negated <;> simp

theorem spare (follows : matcher.Follows passage) {later : Matcher} (here : Outcome)
    {least most count landing : Nat} (enough : least ≤ count) (below : count < most)
    (rest : ∀ next : Outcome, (∃ outcome ∈ later next, outcome.position = landing) ↔
      ∃ more, least ≤ count + 1 + more ∧ count + 1 + more ≤ max least most ∧
        passage.times more next.position landing) :
    (here.position = landing ∨
        ∃ outcome ∈ (matcher here).flatMap fun next =>
          if _ : next.position = here.position then [] else later next,
        outcome.position = landing) ↔
      ∃ more, least ≤ count + more ∧ count + more ≤ max least most ∧
        passage.times more here.position landing := by
  have moves := passage.exists_times_iff_moves (max least most - count - 1)
    here.position landing
  have counts : (∃ more, least ≤ count + more ∧ count + more ≤ max least most ∧
      passage.times more here.position landing) ↔
      ∃ more, more ≤ max least most - count - 1 + 1 ∧
        passage.times more here.position landing := by
    constructor
    · intro passage
      rcases passage with ⟨more, -, bounded, path⟩
      exact ⟨more, by omega, path⟩
    · intro passage
      rcases passage with ⟨more, bounded, path⟩
      exact ⟨more, by omega, by omega, path⟩
  rw [counts, moves]
  refine or_congr_right ?_
  simp only [List.mem_flatMap]
  constructor
  · intro found
    rcases found with ⟨outcome, ⟨next, member, later⟩, ends⟩
    by_cases moved : next.position = here.position
    · simp [moved] at later
    · rw [dif_neg moved] at later
      rcases (rest next).mp ⟨outcome, later, ends⟩ with ⟨more, -, bounded, path⟩
      exact ⟨next.position, (follows here _).mp ⟨next, member, rfl⟩, moved, more, by omega,
        path⟩
  · intro passage
    rcases passage with ⟨position, first, moved, more, bounded, path⟩
    rcases (follows here position).mpr first with ⟨next, member, rfl⟩
    obtain ⟨outcome, later, ends⟩ := (rest next).mpr ⟨more, by omega, by omega, path⟩
    refine ⟨outcome, ⟨next, member, ?_⟩, ends⟩
    rw [dif_neg moved]
    exact later

theorem iterate_from (follows : matcher.Follows passage) (greed : Greed) {least most : Nat}
    {count : Nat} (here : Outcome) (within : count ≤ max least most) (landing : Nat) :
    (∃ outcome ∈ Matcher.iterate greed least most matcher count here,
        outcome.position = landing) ↔
      ∃ more, least ≤ count + more ∧ count + more ≤ max least most ∧
        passage.times more here.position landing := by
  fun_induction Matcher.iterate greed least most matcher count here with
  | case1 count here owed induction =>
      simp only [List.mem_flatMap]
      constructor
      · intro found
        rcases found with ⟨outcome, ⟨next, member, later⟩, ends⟩
        rcases (induction next (by omega)).mp ⟨outcome, later, ends⟩ with
          ⟨more, enough, bounded, path⟩
        exact ⟨more + 1, by omega, by omega, next.position,
          (follows here _).mp ⟨next, member, rfl⟩, path⟩
      · intro passage
        rcases passage with ⟨more, enough, bounded, path⟩
        obtain ⟨more, rfl⟩ : ∃ rest, more = rest + 1 := ⟨more - 1, by omega⟩
        rcases path with ⟨position, first, rest⟩
        rcases (follows here position).mpr first with ⟨next, member, rfl⟩
        obtain ⟨outcome, later, ends⟩ :=
          (induction next (by omega)).mpr ⟨more, by omega, by omega, rest⟩
        exact ⟨outcome, ⟨next, member, later⟩, ends⟩
  | case2 count here owed done =>
      constructor
      · intro found
        rcases found with ⟨outcome, member, ends⟩
        rcases List.mem_singleton.mp member with rfl
        exact ⟨0, by omega, by omega, ends⟩
      · intro passage
        rcases passage with ⟨more, enough, bounded, path⟩
        obtain rfl : more = 0 := by omega
        exact ⟨here, List.mem_singleton_self here, path⟩
  | case3 count here owed spare again greedy induction =>
      have rest := follows.spare here (Nat.le_of_not_lt owed)
        (Nat.lt_of_not_le spare) (fun next => induction next (by omega))
      rw [← rest]
      simp only [List.mem_append, List.mem_singleton, or_and_right, exists_or,
        exists_eq_left]
      exact or_comm
  | case4 count here owed spare again reluctant induction =>
      have rest := follows.spare here (Nat.le_of_not_lt owed)
        (Nat.lt_of_not_le spare) (fun next => induction next (by omega))
      rw [← rest]
      simp only [List.mem_cons, or_and_right, exists_or, exists_eq_left]
      exact Iff.rfl

theorem iterate (follows : matcher.Follows passage) (greed : Greed) (least most : Nat) :
    Matcher.Follows (Matcher.iterate greed least most matcher 0)
      (Passage.iterate least most passage) := by
  intro here landing
  simpa [Passage.iterate] using follows.iterate_from greed here (Nat.zero_le _) landing

end Matcher.Follows

namespace Fragment

def isBackref : Fragment → Bool
  | backref _ _ => true
  | _ => false

variable {subject : Subject} {fragment : Fragment}

variable [CharacterData]

theorem followsEach {fragments : List Fragment} {direction : Direction}
    (each : ∀ part ∈ fragments,
      Matcher.Follows (part.outcomes subject direction) (part.passage subject direction)) :
    List.Forall₂ Matcher.Follows (outcomesEach subject fragments direction)
      (passageEach subject fragments direction) := by
  induction fragments with
  | nil => exact .nil
  | cons fragment rest induction =>
      rcases List.forall_mem_cons.mp each with ⟨first, others⟩
      exact .cons first (induction others)

theorem outcomes_follows (free : fragment.Throughout (·.isBackref = false)) :
    ∀ direction, Matcher.Follows (fragment.outcomes subject direction)
      (fragment.passage subject direction) := by
  induction fragment using Fragment.induct with
  | literal text flags => exact fun _ _ _ => Outcome.exists_mem_arrive
  | any flags => exact fun _ _ _ => Outcome.exists_mem_arrive
  | ofClass runeClass flags negated => exact fun _ _ _ => Outcome.exists_mem_arrive
  | ofSet ranges flags negated => exact fun _ _ _ => Outcome.exists_mem_arrive
  | backref group flags => cases free.here
  | skip count => exact fun _ _ _ => Outcome.exists_mem_arrive
  | anchored anchor =>
      intro direction here landing
      simp only [outcomes, passage]
      by_cases holds : subject.anchorHolds here.position anchor = true <;> simp [holds]
  | sequence parts induction =>
      exact fun direction => .sequence direction (followsEach fun part member =>
        induction part member (free.of_sequence part member) direction)
  | alternation alternatives induction =>
      exact fun direction => .choose (followsEach fun alternative member =>
        induction alternative member (free.of_alternation alternative member) direction)
  | repetition greed min max body induction =>
      exact fun direction => (induction free.of_repetition direction).iterate greed _ _
  | capture group body induction =>
      exact fun direction => (induction free.of_capture direction).capture _ direction
  | lookaround sight negated body induction =>
      exact fun _ => (induction free.of_lookaround sight).look negated

end Fragment

variable [CharacterData]

/-- A compiled program without back references accepts just if its fragment
leads anywhere from the start. -/
theorem Processor.execute_accepts_iff {processor : Processor} {subject : Subject}
    {start : Nat} {fragment : Fragment} {entry : Direction} {granularity : Granularity}
    (compiled : fragment.compile entry granularity = .ok processor.program)
    (free : processor.busy = false) (unbounded : processor.options.budget = 0)
    (admitted : (processor.attempt subject start).Admitted)
    (unreferring : fragment.Throughout (·.isBackref = false)) :
    ∃ fuel result after, (∀ more, fuel ≤ more →
        processor.execute more subject start entry = some (.ok result, after)) ∧
      (result.status = .accepted ↔
        ∃ landing, fragment.passage subject entry start landing) := by
  rcases execute_compiled compiled free unbounded admitted with
    ⟨fuel, result, after, executed, agrees⟩
  refine ⟨fuel, result, after, executed, ?_⟩
  have follows : Matcher.Follows (fragment.outcomes subject entry)
      (fragment.passage subject entry) := Fragment.outcomes_follows unreferring entry
  have leads := follows.ne_nil_iff (.opening start)
  cases found : fragment.outcomes subject entry (.opening start) with
  | nil =>
      rw [found] at agrees
      refine iff_of_false ?_ fun passes => leads.mpr passes found
      rw [show result.status = .noMatch from agrees]
      nofun
  | cons first rest =>
      rw [found] at agrees leads
      exact iff_of_true agrees.accepted (leads.mp nofun)

end RegexMachine
