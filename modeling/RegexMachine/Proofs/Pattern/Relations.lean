import RegexMachine.Proofs.Pattern.Outcomes
import RegexMachine.Proofs.Pattern.Parts
import RegexMachine.Proofs.Text.Limits

/-! # Relations that outcomes keep

A relation between where a fragment is entered and where it leads has to be looked at
only for the parts that move, for captures, and for what looks ahead or back. Sequences,
choices and loops keep every relation that can be put together. -/

namespace RegexMachine

def Matcher.Relates (relation : Outcome → Outcome → Prop) (matcher : Matcher) : Prop :=
  ∀ here, ∀ there ∈ matcher here, relation here there

/-- A relation, which may depend on the direction, holds of whatever stays or moves
onward, can be put together, and remains when what looks returns to its position. -/
structure Subject.Transports (subject : Subject)
    (relation : Direction → Outcome → Outcome → Prop) : Prop where
  refl : ∀ direction here, relation direction here here
  trans : ∀ direction here middle there, relation direction here middle →
    relation direction middle there → relation direction here there
  move : ∀ direction (here : Outcome) position, (subject.covers here.position = true →
    subject.Onward direction here.position position) →
      relation direction here { here with position }
  look : ∀ direction sight (here there : Outcome), relation sight here there →
    relation direction here { there with position := here.position }

namespace Subject.Transports

variable {subject : Subject} {relation : Direction → Outcome → Outcome → Prop}
  {direction sight : Direction} {matcher second : Matcher}

theorem arrive (transports : subject.Transports relation) {here there : Outcome}
    {next : Option Nat} {boundary : Bool}
    (lands : ∀ landing, next = some landing → subject.covers here.position = true →
      subject.Onward direction here.position landing)
    (member : there ∈ here.arrive subject next boundary) : relation direction here there := by
  unfold Outcome.arrive at member
  cases next with
  | none => cases member
  | some landing =>
      simp only at member
      split at member
      · cases member
      · cases List.mem_singleton.mp member
        exact transports.move direction here landing (lands landing rfl)

theorem stay (transports : subject.Transports relation) :
    Matcher.Relates (relation direction) fun here => [here] := by
  intro here there member
  cases List.mem_singleton.mp member
  exact transports.refl direction here

theorem chain (transports : subject.Transports relation)
    (first : matcher.Relates (relation direction))
    (onward : second.Relates (relation direction)) :
    (matcher.chain second).Relates (relation direction) := by
  intro here there member
  obtain ⟨middle, reached, later⟩ := List.mem_flatMap.mp member
  exact transports.trans direction here middle there (first here middle reached)
    (onward middle there later)

theorem sequence (transports : subject.Transports relation) (order : Direction)
    {parts : List Matcher}
    (each : ∀ part ∈ parts, Matcher.Relates (relation direction) part) :
    (Matcher.sequence order parts).Relates (relation direction) := by
  induction parts with
  | nil => exact transports.stay
  | cons part rest induction =>
      obtain ⟨first, others⟩ := List.forall_mem_cons.mp each
      cases order with
      | forward => exact transports.chain first (induction others)
      | reverse => exact transports.chain (induction others) first

theorem choose {alternatives : List Matcher}
    (each : ∀ alternative ∈ alternatives, Matcher.Relates (relation direction) alternative) :
    (Matcher.choose alternatives).Relates (relation direction) := by
  intro here there member
  obtain ⟨alternative, among, reached⟩ := List.mem_flatMap.mp member
  exact each alternative among here there reached

theorem spare (transports : subject.Transports relation)
    (relates : matcher.Relates (relation direction)) {later : Matcher} {here there : Outcome}
    (onward : ∀ next, there ∈ later next → relation direction next there)
    (member : there ∈ (matcher here).flatMap fun next =>
      if next.position = here.position then [] else later next) :
    relation direction here there := by
  obtain ⟨next, reached, found⟩ := List.mem_flatMap.mp member
  split at found
  · cases found
  · exact transports.trans direction here next there (relates here next reached)
      (onward next found)

theorem iterate (transports : subject.Transports relation)
    (relates : matcher.Relates (relation direction)) (greed : Greed) (least most count : Nat) :
    Matcher.Relates (relation direction) (Matcher.iterate greed least most matcher count) := by
  intro here there member
  fun_induction Matcher.iterate greed least most matcher count here with
  | case1 count here owed induction =>
      obtain ⟨next, reached, later⟩ := List.mem_flatMap.mp member
      exact transports.trans direction here next there (relates here next reached)
        (induction next later)
  | case2 count here owed done => exact transports.stay here there member
  | case3 count here owed spare again greedy induction =>
      rcases List.mem_append.mp member with moved | stayed
      · exact transports.spare relates induction moved
      · exact transports.stay here there stayed
  | case4 count here owed spare again reluctant induction =>
      rcases List.mem_cons.mp member with rfl | moved
      · exact transports.refl direction there
      · exact transports.spare relates induction moved

theorem lookaround (transports : subject.Transports relation)
    (relates : matcher.Relates (relation sight)) (negated : Bool) :
    (matcher.look negated).Relates (relation direction) := by
  intro here there member
  unfold Matcher.look at member
  split at member
  · exact transports.stay here there member
  · cases member
  · cases member
  · next first rest found =>
      rw [List.mem_singleton.mp member]
      exact transports.look direction sight here first
        (relates here first (by rw [found]; exact List.mem_cons_self))

end Subject.Transports

namespace Fragment

variable {subject : Subject} {relation : Direction → Outcome → Outcome → Prop}
  {direction : Direction} {fragment : Fragment}

variable [CharacterData]

def CaptureRelates (subject : Subject) (relation : Direction → Outcome → Outcome → Prop) :
    Fragment → Prop
  | capture group body => ∀ direction,
      (body.outcomes subject direction).Relates (relation direction) →
        (Matcher.capture group.toNat (body.outcomes subject direction) direction).Relates
          (relation direction)
  | _ => True

theorem relateEach {fragments : List Fragment}
    (each : ∀ part ∈ fragments, (part.outcomes subject direction).Relates
      (relation direction)) :
    ∀ matcher ∈ outcomesEach subject fragments direction,
      Matcher.Relates (relation direction) matcher := by
  induction fragments with
  | nil => exact nofun
  | cons fragment rest induction =>
      obtain ⟨first, others⟩ := List.forall_mem_cons.mp each
      exact List.forall_mem_cons.mpr ⟨first, induction others⟩

/-- What every capture in a fragment keeps is kept by the fragment. -/
theorem outcomes_relate (transports : subject.Transports relation)
    (captures : fragment.Throughout (CaptureRelates subject relation)) : ∀ direction,
      (fragment.outcomes subject direction).Relates (relation direction) := by
  induction fragment using Fragment.induct with
  | literal text flags =>
      exact fun _ _ _ =>
        transports.arrive fun _ passes _ => Subject.passLiteral_onward passes
  | any flags =>
      exact fun _ _ _ => transports.arrive fun _ passes _ => Subject.passUnit_onward passes
  | ofClass runeClass flags negated =>
      exact fun _ _ _ => transports.arrive fun _ passes _ => Subject.passUnit_onward passes
  | ofSet ranges flags negated =>
      exact fun _ _ _ => transports.arrive fun _ passes _ => Subject.passUnit_onward passes
  | backref group flags =>
      intro direction here there member
      simp only [outcomes] at member
      split at member
      · exact transports.stay here there member
      · exact transports.arrive (fun _ passes _ => Subject.passLiteral_onward passes) member
  | skip count =>
      exact fun _ _ _ => transports.arrive fun _ passes covered =>
        Subject.passUnits_onward covered passes
  | anchored anchor =>
      intro direction here there member
      simp only [outcomes] at member
      split at member
      · exact transports.stay here there member
      · cases member
  | sequence parts induction =>
      exact fun direction => transports.sequence direction (relateEach fun part member =>
        induction part member (captures.of_sequence part member) direction)
  | alternation alternatives induction =>
      exact fun direction => Subject.Transports.choose (relateEach fun alternative member =>
        induction alternative member (captures.of_alternation alternative member) direction)
  | repetition greed min max body induction =>
      exact fun direction =>
        transports.iterate (induction captures.of_repetition direction) greed _ _ _
  | capture group body induction =>
      exact fun direction => captures.here direction (induction captures.of_capture direction)
  | lookaround sight negated body induction =>
      exact fun _ => transports.lookaround (induction captures.of_lookaround sight) negated

end Fragment

end RegexMachine
