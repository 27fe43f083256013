import Mathlib
import RegexMachine.Proofs.Pattern.Levels
import RegexMachine.Proofs.Pattern.Soundness

/-! # Instructions of fragments

Each instruction that lies in a fragment is one that the fragment or a part of it is
emitted as, apart from what its own parts are emitted as. So whatever holds of the
instructions of all parts holds of the instructions in place, and of those of a compiled
program. -/

namespace RegexMachine

def Program.Between (program : Program) (test : Instruction → Prop) (first last : Nat) :
    Prop :=
  ∀ (address : Nat) instruction, first ≤ address → address < last →
    program.instructions[address]? = some instruction → test instruction

namespace Program.Between

variable {program : Program} {test : Instruction → Prop} {first middle last : Nat}
  {instruction : Instruction}

theorem trans (front : program.Between test first middle)
    (back : program.Between test middle last) : program.Between test first last := by
  intro address instruction behind before
  rcases Nat.lt_or_ge address middle with earlier | later
  · exact front address instruction behind earlier
  · exact back address instruction later before

theorem single (found : program.instructions[first]? = some instruction)
    (passes : test instruction) : program.Between test first (first + 1) := by
  intro address other behind before read
  obtain rfl : address = first := by omega
  rw [found] at read
  cases read
  exact passes

theorem imp {other : Instruction → Prop} (weaker : ∀ instruction, test instruction →
    other instruction) (between : program.Between test first last) :
    program.Between other first last :=
  fun address instruction behind before found =>
    weaker instruction (between address instruction behind before found)

theorem iff_steady : program.Between test first last ↔
    program.Steady (fun _ => ()) (fun _ => test) first last :=
  ⟨fun between => ⟨rfl, fun address behind before instruction =>
      between address instruction behind before⟩,
    fun steady address instruction behind before => steady.keeps address behind before instruction⟩

end Program.Between

namespace Fragment

variable [CharacterData]

/-- The fragment is emitted as the instruction, among others and apart from its parts. -/
inductive Issues (program : Program) : Fragment → Instruction → Prop
  | literal {text flags direction offset length slice}
      (read : program.literal? offset length = some slice)
      (holds : slice.toOctets = wanted text (flags.has .caseless)) :
      Issues program (literal text flags) (.matchString direction offset length
        (flags.has .caseless) (flags.has .boundary))
  | any {flags direction} :
      Issues program (any flags)
        (.matchAny direction (flags.has .newline) (flags.has .boundary))
  | ofClass {runeClass flags negated direction} :
      Issues program (ofClass runeClass flags negated)
        (.matchClass direction runeClass negated (flags.has .boundary))
  | ofSet {ranges flags negated direction index set}
      (read : program.runeSets[index.toNat]? = some set)
      (gathered : Encoder.gatherRanges ranges (flags.has .caseless) = .ok set) :
      Issues program (ofSet ranges flags negated) (.matchSet direction index negated
        (flags.has .caseless) (flags.has .boundary))
  | backref {group flags direction} :
      Issues program (backref group flags)
        (.matchBackref direction group (flags.has .caseless) (flags.has .boundary))
  | skip {count direction word} (same : word.toNat = count) :
      Issues program (skip count) (.advance direction word)
  | anchored {anchor} : Issues program (anchored anchor) (.assertAnchor anchor)
  | without : Issues program (alternation []) .fail
  | offer {alternatives target} : Issues program (alternation alternatives) (.branch target)
  | offerLast {alternatives target} : Issues program (alternation alternatives) (.jump target)
  | start {greed min max body counter} :
      Issues program (repetition greed min max body) (.repeatStart counter)
  | decide {greed min max body counter exit} :
      Issues program (repetition greed min max body) (.quantify greed min max counter exit)
  | again {greed min max body counter head} :
      Issues program (repetition greed min max body) (.repeatEnd counter head)
  | opening {group body} : Issues program (capture group body) (.beginCapture group)
  | closing {group body} : Issues program (capture group body) (.endCapture group)
  | mark {sight negated body target} :
      Issues program (lookaround sight negated body) (.save target)
  | commit {sight negated body target} :
      Issues program (lookaround sight negated body) (.clearThrough target !negated)
  | leave {sight body target} : Issues program (lookaround sight false body) (.jump target)
  | refuse {sight negated body} : Issues program (lookaround sight negated body) .fail

variable {program : Program} {test : Instruction → Prop} {fragment : Fragment}
  {direction : Direction} {first last floor : Nat}

/-- All instructions that the fragment itself is emitted as pass the test. -/
def IssuesOnly (program : Program) (test : Instruction → Prop) (fragment : Fragment) : Prop :=
  ∀ instruction, fragment.Issues program instruction → test instruction

/-! ## Rules for instructions in place -/

section Rules

variable {rule : Nat → Instruction → Prop} {start : Nat}

theorem ruled_row {parts : List Fragment}
    (each : ∀ part ∈ parts, ∀ direction first last, start ≤ first →
      part.Placed program direction first last floor →
        program.Steady (fun _ => ()) rule first last)
    (behind : start ≤ first) (placed : PlacedRow program parts direction first last floor) :
    program.Steady (fun _ => ()) rule first last := by
  induction parts generalizing first last with
  | nil =>
      cases placed
      exact .refl _ _ _ _
  | cons part rest induction =>
      obtain ⟨here, others⟩ := List.forall_mem_cons.mp each
      cases direction with
      | forward =>
          obtain ⟨middle, front, back⟩ := placed
          have ordered := (balances program part _ _ _ _ front).1
          exact (here _ _ _ behind front).trans (induction others (by omega) back)
      | reverse =>
          obtain ⟨middle, front, back⟩ := placed
          have row : (sequence rest).Placed program .reverse first middle floor := front
          have ordered := (balances program (sequence rest) _ _ _ _ row).1
          exact (induction others behind front).trans (here _ _ _ (by omega) back)

theorem ruled_choice {alternatives : List Fragment} {entry : Nat}
    (branches : ∀ address target, rule address (.branch target))
    (jumps : ∀ address target, rule address (.jump target))
    (each : ∀ alternative ∈ alternatives, ∀ direction first last, start ≤ first →
      alternative.Placed program direction first last floor →
        program.Steady (fun _ => ()) rule first last)
    (behind : start ≤ first)
    (placed : PlacedChoice program alternatives direction entry first last floor) :
    program.Steady (fun _ => ()) rule entry (entry + alternatives.length) ∧
      program.Steady (fun _ => ()) rule first last := by
  induction alternatives generalizing entry first with
  | nil => exact placed.elim
  | cons alternative rest induction =>
      obtain ⟨here, others⟩ := List.forall_mem_cons.mp each
      obtain ⟨target, middle, -, body, following⟩ := placed
      have ordered := (balances program alternative _ _ _ _ body).1
      cases rest with
      | nil =>
          obtain ⟨jumped, rfl⟩ := following
          exact ⟨.single jumped rfl (jumps _ _), here _ _ _ behind body⟩
      | cons next rest =>
          obtain ⟨branched, ⟨done, left, -⟩, placed⟩ := following
          obtain ⟨entries, alternatives⟩ := induction others (by omega) placed
          have entered : program.Steady (fun _ => ()) rule entry (entry + 1) :=
            .single branched rfl (branches _ _)
          have leaves : program.Steady (fun _ => ()) rule middle (middle + 1) :=
            .single left rfl (jumps _ _)
          have length : entry + (alternative :: next :: rest).length =
              entry + 1 + (next :: rest).length := by
            simp only [List.length_cons]
            omega
          rw [length]
          exact ⟨entered.trans entries, (here _ _ _ behind body).trans (leaves.trans alternatives)⟩

/-- The condition `fits` on fragments is passed on to the parts, and whatever a fragment that
fits is emitted as keeps the rule. What a lookaround encloses keeps the rule, too. -/
structure Imposes (program : Program) (rule : Nat → Instruction → Prop) (start : Nat)
    (fits : Fragment → Prop) : Prop where
  issues : ∀ {fragment instruction}, fits fragment → fragment.Issues program instruction →
    ∀ address, rule address instruction
  sequence : ∀ {parts}, fits (sequence parts) → ∀ part ∈ parts, fits part
  alternation : ∀ {alternatives}, fits (alternation alternatives) →
    ∀ alternative ∈ alternatives, fits alternative
  repetition : ∀ {greed min max body}, fits (repetition greed min max body) → fits body
  capture : ∀ {group body}, fits (capture group body) → fits body
  lookaround : ∀ {sight negated body direction first last floor},
    fits (lookaround sight negated body) → (fits body → ∀ first last, start ≤ first →
      body.Placed program sight first last floor →
        program.Steady (fun _ => ()) rule first last) → start ≤ first →
      (Fragment.lookaround sight negated body).Placed program direction first last floor →
        program.Steady (fun _ => ()) rule first last

/-- Wherever a fragment that fits is placed from the start on, its instructions keep the
rule. -/
theorem ruled_of_placed {fits : Fragment → Prop} (imposes : Imposes program rule start fits)
    (fragment : Fragment) : fits fragment → ∀ direction first last floor, start ≤ first →
      fragment.Placed program direction first last floor →
        program.Steady (fun _ => ()) rule first last := by
  have single {fragment : Fragment} {address : Nat} {instruction : Instruction}
      (fit : fits fragment) (found : program.instructions[address]? = some instruction)
      (issued : fragment.Issues program instruction) :
      program.Steady (fun _ => ()) rule address (address + 1) :=
    .single found rfl (imposes.issues fit issued address)
  have leaf {fragment : Fragment} {first last : Nat} {instruction : Instruction}
      (fit : fits fragment) (next : last = first + 1)
      (found : program.instructions[first]? = some instruction)
      (issued : fragment.Issues program instruction) :
      program.Steady (fun _ => ()) rule first last := by
    subst next
    exact single fit found issued
  induction fragment using Fragment.induct with
  | literal text flags =>
      intro fit direction first last floor _ placed
      obtain ⟨next, offset, length, slice, found, read, holds⟩ := placed
      exact leaf fit next found (.literal read holds)
  | any => exact fun fit _ _ _ _ _ placed => leaf fit placed.1 placed.2 .any
  | ofClass => exact fun fit _ _ _ _ _ placed => leaf fit placed.1 placed.2 .ofClass
  | ofSet =>
      intro fit direction first last floor _ placed
      obtain ⟨next, _, _, found, read, gathered⟩ := placed
      exact leaf fit next found (.ofSet read gathered)
  | backref => exact fun fit _ _ _ _ _ placed => leaf fit placed.1 placed.2 .backref
  | skip =>
      intro fit direction first last floor _ placed
      obtain ⟨next, _, same, found⟩ := placed
      exact leaf fit next found (.skip same)
  | anchored => exact fun fit _ _ _ _ _ placed => leaf fit placed.1 placed.2 .anchored
  | sequence parts induction =>
      intro fit direction first last floor behind placed
      exact ruled_row (fun part member direction first last =>
        induction part member (imposes.sequence fit part member) _ _ _ _) behind placed
  | alternation alternatives induction =>
      intro fit direction first last floor behind placed
      cases alternatives with
      | nil => exact leaf fit placed.1 placed.2 .without
      | cons alternative rest =>
          obtain ⟨entries, bodies⟩ := ruled_choice
            (fun address _ => imposes.issues fit .offer address)
            (fun address _ => imposes.issues fit .offerLast address)
            (fun part member direction first last =>
              induction part member (imposes.alternation fit part member) _ _ _ _)
            (show start ≤ first + rest.length + 1 by omega) placed
          exact entries.trans bodies
  | repetition greed min max body induction =>
      intro fit direction first last floor behind placed
      obtain ⟨counter, done, back, middle, -, rfl, started, quantified, -, placed, repeated,
        -⟩ := placed
      have body := induction (imposes.repetition fit) _ _ _ _ (by omega) placed
      exact (single fit started .start).trans ((single fit quantified .decide).trans
        (body.trans (single fit repeated .again)))
  | capture group body induction =>
      intro fit direction first last floor behind placed
      cases direction with
      | forward =>
          obtain ⟨middle, rfl, opened, placed, closed⟩ := placed
          have body := induction (imposes.capture fit) _ _ _ _ (by omega) placed
          exact (single fit opened .opening).trans (body.trans (single fit closed .closing))
      | reverse =>
          obtain ⟨middle, rfl, closed, placed, opened⟩ := placed
          have body := induction (imposes.capture fit) _ _ _ _ (by omega) placed
          exact (single fit closed .closing).trans (body.trans (single fit opened .opening))
  | lookaround sight negated body induction =>
      intro fit direction first last floor behind placed
      exact imposes.lookaround fit (fun inner first last => induction inner _ _ _ _) behind
        placed

theorem ruled_lookaround {sight : Direction} {negated : Bool} {body : Fragment}
    (issues : ∀ instruction, (lookaround sight negated body).Issues program instruction →
      ∀ address, rule address instruction)
    (within : ∀ middle label, program.instructions[first]? = some (.save label) →
      program.target? label = some (middle + 2) →
        program.instructions[middle]? = some (.clearThrough label !negated) →
          body.Placed program sight (first + 1) middle floor →
            program.Steady (fun _ => ()) rule (first + 1) middle)
    (placed : (lookaround sight negated body).Placed program direction first last floor) :
    program.Steady (fun _ => ()) rule first last := by
  have single {address : Nat} {instruction : Instruction}
      (found : program.instructions[address]? = some instruction)
      (issued : (lookaround sight negated body).Issues program instruction) :
      program.Steady (fun _ => ()) rule address (address + 1) :=
    .single found rfl (issues _ issued address)
  cases negated with
  | true =>
      obtain ⟨done, middle, rfl, saved, bound, placed, committed, failed⟩ := placed
      exact (single saved .mark).trans ((within _ _ saved bound committed placed).trans
        ((single committed .commit).trans (single failed .refuse)))
  | false =>
      obtain ⟨failure, done, middle, rfl, saved, bound, placed, committed, jumped, -,
        failed⟩ := placed
      exact (single saved .mark).trans ((within _ _ saved bound committed placed).trans
        ((single committed .commit).trans ((single jumped .leave).trans (single failed .refuse))))

end Rules

theorem between_row {parts : List Fragment}
    (each : ∀ part ∈ parts, ∀ direction first last,
      part.Placed program direction first last floor → program.Between test first last)
    (placed : PlacedRow program parts direction first last floor) :
    program.Between test first last := by
  refine Program.Between.iff_steady.mpr (ruled_row ?_ (Nat.zero_le _) placed)
  exact fun part member direction first last _ placed =>
    Program.Between.iff_steady.mp (each part member direction first last placed)

theorem between_choice {alternatives : List Fragment} {entry : Nat}
    (branches : ∀ target, test (.branch target)) (jumps : ∀ target, test (.jump target))
    (each : ∀ alternative ∈ alternatives, ∀ direction first last,
      alternative.Placed program direction first last floor →
        program.Between test first last)
    (placed : PlacedChoice program alternatives direction entry first last floor) :
    program.Between test entry (entry + alternatives.length) ∧
      program.Between test first last := by
  simp only [Program.Between.iff_steady] at each ⊢
  exact ruled_choice (fun _ => branches) (fun _ => jumps)
    (fun part member direction first last _ => each part member direction first last)
    (Nat.zero_le _) placed

theorem between_of_placed (all : fragment.Throughout (IssuesOnly program test)) :
    ∀ direction first last floor, fragment.Placed program direction first last floor →
      program.Between test first last := by
  have imposes : Imposes program (fun _ => test) 0
      (fun fragment => fragment.Throughout (IssuesOnly program test)) :=
    { issues := fun all issued _ => all.here _ issued
      sequence := fun all => all.of_sequence
      alternation := fun all => all.of_alternation
      repetition := fun all => all.of_repetition
      capture := fun all => all.of_capture
      lookaround := fun all within _ placed => ruled_lookaround
        (fun _ issued _ => all.here _ issued)
        (fun _ _ _ _ _ => within all.of_lookaround _ _ (Nat.zero_le _)) placed }
  intro direction first last floor placed
  exact Program.Between.iff_steady.mpr
    (ruled_of_placed imposes fragment all _ _ _ _ (Nat.zero_le _) placed)

theorem passes_of_compile {entry : Direction} {granularity : Granularity}
    (all : fragment.Throughout (IssuesOnly program test)) (accepts : test .accept)
    (compiled : fragment.compile entry granularity = .ok program) (address : Nat)
    (instruction : Instruction) (found : program.instructions[address]? = some instruction) :
    test instruction := by
  rcases placed_of_compile compiled with ⟨last, placed, ends, size⟩
  have whole := (between_of_placed all _ _ _ _ placed).trans (.single ends accepts)
  rcases Array.getElem?_eq_some_iff.mp found with ⟨inside, -⟩
  exact whole address instruction (Nat.zero_le _) (by omega) found

end Fragment

end RegexMachine
