import RegexMachine.Proofs.Pattern.Soundness

/-! # Groups of a program

An encoder makes sure of the groups that a fragment speaks of and of no others. So how
many groups a program has can be told from its fragment, and does not depend on how often
or in which order the parts of it were emitted. -/

namespace RegexMachine

namespace Fragment

mutual

/-- One more than the greatest group that the fragment captures or refers to. -/
def groupBound : Fragment → Nat
  | backref group _ => group.toNat + 1
  | sequence parts => groupBoundEach parts
  | alternation alternatives => groupBoundEach alternatives
  | repetition _ _ _ body => groupBound body
  | capture group body => max (group.toNat + 1) (groupBound body)
  | lookaround _ _ body => groupBound body
  | _ => 0

def groupBoundEach : List Fragment → Nat
  | [] => 0
  | fragment :: rest => max (groupBound fragment) (groupBoundEach rest)

end

/-- If the action returns, the encoder has so many groups, or as many as before if these
were more. -/
def Reserves {α : Type} (action : Encode α) (groups : Nat) : Prop :=
  ∀ encoder result after, action encoder = .ok result after →
    after.program.captureCount = max encoder.program.captureCount groups

namespace Reserves

open Encoder

variable {α β : Type} {first : Encode α} {second : α → Encode β} {groups more : Nat}

theorem pure (value : α) : Reserves (Pure.pure value) 0 := by
  intro encoder result after returns
  rcases pure_eq_ok.mp returns with ⟨-, rfl⟩
  exact (Nat.max_zero _).symm

theorem bind (front : Reserves first groups) (back : ∀ value, Reserves (second value) more) :
    Reserves (first >>= second) (max groups more) := by
  intro encoder result after returns
  rcases bind_eq_ok.mp returns with ⟨value, middle, left, right⟩
  rw [back value middle result after right, front encoder value middle left, Nat.max_assoc]

theorem after (front : Reserves first 0) (back : ∀ value, Reserves (second value) groups) :
    Reserves (first >>= second) groups := by
  have both := front.bind back
  rwa [Nat.zero_max] at both

theorem before (front : Reserves first groups) (back : ∀ value, Reserves (second value) 0) :
    Reserves (first >>= second) groups := by
  have both := front.bind back
  rwa [Nat.max_zero] at both

theorem discard (reserves : Reserves first groups) : Reserves (discard first) groups := by
  intro encoder _ after returns
  rcases discard_eq_ok.mp returns with ⟨result, returns⟩
  exact reserves encoder result after returns

theorem append (instruction : Instruction) : Reserves (Encoder.append instruction) 0 := by
  intro encoder address after returns
  rcases append_eq_ok.mp returns with ⟨-, -, rfl⟩
  exact (Nat.max_zero _).symm

theorem freshLabel : Reserves Encoder.freshLabel 0 := by
  intro encoder label after returns
  rcases freshLabel_eq_ok.mp returns with ⟨-, -, rfl⟩
  exact (Nat.max_zero _).symm

theorem bindLabel (label : Label) : Reserves (Encoder.bindLabel label) 0 := by
  intro encoder _ after returns
  rcases bindLabel_eq_ok.mp returns with ⟨-, rfl⟩
  exact (Nat.max_zero _).symm

theorem reserveGroup (group : UInt16) :
    Reserves (Encoder.reserveGroup group) (group.toNat + 1) := by
  intro encoder _ after returns
  rcases reserveGroup_eq_ok.mp returns with ⟨-, rfl⟩
  rfl

theorem freshCounter : Reserves Encoder.freshCounter 0 := by
  intro encoder counter after returns
  rcases freshCounter_eq_ok.mp returns with ⟨-, rfl⟩
  exact (Nat.max_zero _).symm

theorem orStop (operand : Option α) (fault : Fault) :
    Reserves (Encoder.orStop operand fault) 0 := by
  intro encoder result after returns
  rcases orStop_eq_ok.mp returns with ⟨-, rfl⟩
  exact (Nat.max_zero _).symm

theorem addLiteral (literal : Octets) : Reserves (Encoder.addLiteral literal) 0 := by
  intro encoder place after returns
  rcases addLiteral_eq_ok.mp returns with ⟨-, -, rfl⟩
  exact (Nat.max_zero _).symm

theorem addRuneSet (set : RuneSet) : Reserves (Encoder.addRuneSet set) 0 := by
  intro encoder index after returns
  rcases addRuneSet_eq_ok.mp returns with ⟨-, rfl⟩
  exact (Nat.max_zero _).symm

variable [CharacterData]

theorem matchSet (ranges : List Interval) (direction : Direction) (flags : MatchFlags)
    (negated : Bool) : Reserves (Encoder.matchSet ranges direction flags negated) 0 := by
  intro encoder address after returns
  cases gathered : gatherRanges ranges (flags.has .caseless) with
  | error fault =>
      simp only [Encoder.matchSet, gathered] at returns
      exact absurd returns throw_ne_ok
  | ok set =>
      simp only [Encoder.matchSet, gathered] at returns
      exact (addRuneSet _).after (fun _ => append _) encoder address after returns

omit [CharacterData] in
theorem quantify (greed : Greed) (min max : UInt32) (counter : UInt16) (exit : Label) :
    Reserves (Encoder.quantify greed min max counter exit) 0 := by
  intro encoder address after returns
  simp only [Encoder.quantify] at returns
  split at returns
  · rcases bind_eq_ok.mp returns with ⟨_, _, thrown, -⟩
    exact absurd thrown throw_ne_ok
  · exact append _ encoder address after returns

omit [CharacterData] in
theorem freshLabels (items : List α) {next : List Label → Encode β}
    (reserves : ∀ labels, labels.length = items.length → Reserves (next labels) groups) :
    Reserves (items.mapM (fun _ => Encoder.freshLabel) >>= next) groups := by
  induction items generalizing next with
  | nil =>
      simp only [List.mapM_nil, pure_bind]
      exact reserves [] rfl
  | cons item rest induction =>
      simp only [List.mapM_cons, bind_assoc, pure_bind]
      exact freshLabel.after fun label => induction fun labels length =>
        reserves (label :: labels) (congrArg (· + 1) length)

omit [CharacterData] in
theorem dispatch (entries : List Label) : Reserves (Encoder.dispatch entries) 0 := by
  induction entries with
  | nil => exact pure ()
  | cons entry rest induction =>
      cases rest with
      | nil => exact (append _).discard
      | cons next rest => exact (append _).discard.after fun _ => induction

end Reserves

/-! ## Fragments -/

open Encoder

variable {direction : Direction}

variable [CharacterData]

theorem reserves_forward {parts : List Fragment}
    (each : ∀ part ∈ parts, Reserves (part.emit .forward) part.groupBound) :
    Reserves ((emitters parts).forM (· .forward)) (groupBoundEach parts) := by
  induction parts with
  | nil => exact .pure ()
  | cons part rest induction =>
      rcases List.forall_mem_cons.mp each with ⟨here, others⟩
      exact here.bind fun _ => induction others

theorem reserves_reverse {parts : List Fragment}
    (each : ∀ part ∈ parts, Reserves (part.emit .reverse) part.groupBound) :
    Reserves ((emitters parts).reverse.forM (· .reverse)) (groupBoundEach parts) := by
  induction parts with
  | nil => exact .pure ()
  | cons part rest induction =>
      rcases List.forall_mem_cons.mp each with ⟨here, others⟩
      rw [emitters, List.reverse_cons, forM_concat, groupBoundEach, Nat.max_comm]
      exact (induction others).bind fun _ => here

theorem reserves_alternatives {exit : Label} {entries : List Label}
    {alternatives : List Fragment} (same : entries.length = alternatives.length)
    (each : ∀ part ∈ alternatives, Reserves (part.emit direction) part.groupBound) :
    Reserves (emitAlternatives exit direction (entries.zip (emitters alternatives)))
      (groupBoundEach alternatives) := by
  induction alternatives generalizing entries with
  | nil =>
      have empty : entries = [] := by simpa using same
      subst empty
      exact .pure ()
  | cons alternative rest induction =>
      rcases List.forall_mem_cons.mp each with ⟨here, others⟩
      cases entries with
      | nil => cases same
      | cons target entries =>
          have same : entries.length = rest.length := by simpa using same
          cases rest with
          | nil =>
              have empty : entries = [] := by simpa using same
              subst empty
              rw [groupBoundEach, groupBoundEach, Nat.max_zero]
              exact (Reserves.bindLabel target).after fun _ => here
          | cons next rest =>
              cases entries with
              | nil => cases same
              | cons second entries =>
                  exact (Reserves.bindLabel target).after fun _ => here.bind fun _ =>
                    (Reserves.append _).discard.after fun _ => induction same others

theorem reserves_alternation {alternatives : List Fragment}
    (each : ∀ part ∈ alternatives, Reserves (part.emit direction) part.groupBound) :
    Reserves ((alternation alternatives).emit direction) (groupBoundEach alternatives) := by
  cases alternatives with
  | nil => exact (Reserves.append .fail).discard
  | cons alternative rest =>
      have lengths := length_emitters (alternative :: rest)
      refine Reserves.freshLabels (emitters (alternative :: rest)) fun entries length =>
        Reserves.freshLabel.after fun exit => (Reserves.dispatch entries).after fun _ => ?_
      exact (reserves_alternatives (length.trans lengths) each).before fun _ =>
        .bindLabel exit

theorem reserves_repetition (greed : Greed) (min max : UInt32) {body : Fragment}
    (reserves : Reserves (body.emit direction) body.groupBound) :
    Reserves ((repetition greed min max body).emit direction) body.groupBound := by
  exact Reserves.freshCounter.after fun counter => Reserves.freshLabel.after fun head =>
    Reserves.freshLabel.after fun exit => (Reserves.append _).discard.after fun _ =>
      (Reserves.bindLabel head).after fun _ =>
        (Reserves.quantify greed min max counter exit).discard.after fun _ =>
          reserves.before fun _ => (Reserves.append _).discard.after fun _ =>
            .bindLabel exit

theorem reserves_capture (group : UInt16) {body : Fragment}
    (reserves : Reserves (body.emit direction) body.groupBound) :
    Reserves ((capture group body).emit direction) (capture group body).groupBound := by
  have begins : Reserves (discard (beginCapture group)) (group.toNat + 1) :=
    ((Reserves.reserveGroup group).before fun _ => .append _).discard
  have closes : Reserves (discard (endCapture group)) (group.toNat + 1) :=
    ((Reserves.reserveGroup group).before fun _ => .append _).discard
  rw [groupBound]
  cases direction with
  | forward =>
      have whole := begins.bind fun _ => reserves.bind fun _ => closes
      rwa [Nat.max_comm body.groupBound, ← Nat.max_assoc, Nat.max_self] at whole
  | reverse =>
      have whole := closes.bind fun _ => reserves.bind fun _ => begins
      rwa [Nat.max_comm body.groupBound, ← Nat.max_assoc, Nat.max_self] at whole

theorem reserves_lookaround (sight : Direction) (negated : Bool) {body : Fragment}
    (reserves : Reserves (body.emit sight) body.groupBound) :
    Reserves ((lookaround sight negated body).emit direction) body.groupBound := by
  cases negated with
  | true =>
      exact Reserves.freshLabel.after fun done => (Reserves.append _).discard.after fun _ =>
        reserves.before fun _ => (Reserves.append _).discard.after fun _ =>
          (Reserves.append _).discard.after fun _ => .bindLabel done
  | false =>
      exact Reserves.freshLabel.after fun failure => Reserves.freshLabel.after fun done =>
        (Reserves.append _).discard.after fun _ => reserves.before fun _ =>
          (Reserves.append _).discard.after fun _ => (Reserves.append _).discard.after fun _ =>
            (Reserves.bindLabel failure).after fun _ =>
              (Reserves.append _).discard.after fun _ => .bindLabel done

theorem reserves (fragment : Fragment) :
    ∀ direction, Reserves (fragment.emit direction) fragment.groupBound := by
  induction fragment using Fragment.induct with
  | literal text flags =>
      exact fun _ => ((Reserves.addLiteral _).after fun _ => .append _).discard
  | any flags => exact fun _ => (Reserves.append _).discard
  | ofClass runeClass flags negated => exact fun _ => (Reserves.append _).discard
  | ofSet ranges flags negated => exact fun _ => (Reserves.matchSet _ _ _ _).discard
  | backref group flags =>
      exact fun _ => ((Reserves.reserveGroup group).before fun _ => .append _).discard
  | skip count => exact fun _ => ((Reserves.orStop _ _).after fun _ => .append _).discard
  | anchored anchor => exact fun _ => (Reserves.append _).discard
  | sequence parts induction =>
      intro direction
      cases direction with
      | forward => exact reserves_forward fun part member => induction part member .forward
      | reverse => exact reserves_reverse fun part member => induction part member .reverse
  | alternation alternatives induction =>
      exact fun direction => reserves_alternation fun part member =>
        induction part member direction
  | repetition greed min max body induction =>
      exact fun direction => reserves_repetition greed min max (induction direction)
  | capture group body induction =>
      exact fun direction => reserves_capture group (induction direction)
  | lookaround sight negated body induction =>
      exact fun _ => reserves_lookaround sight negated (induction sight)

/-- A compiled program has the groups that its fragment speaks of, and group zero. -/
theorem captureCount_of_compile {fragment : Fragment} {entry : Direction}
    {granularity : Granularity} {program : Program}
    (compiled : fragment.compile entry granularity = .ok program) :
    program.captureCount = max 1 fragment.groupBound := by
  rcases emitted_of_compile compiled with ⟨middle, emitted, rfl⟩
  exact fragment.reserves entry _ _ middle emitted

end Fragment

end RegexMachine
