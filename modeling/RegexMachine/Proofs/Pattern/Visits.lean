import RegexMachine.Proofs.Pattern.Searches
import RegexMachine.Proofs.Text.Boundaries
import RegexMachine.Rune.Repertoire

/-! # Where a search tries

A scan goes from limit to limit over the units ahead of it, and comes to every boundary of
a unit between the limits, in whichever direction. It comes to nothing else but the limit
it sets out from, and from a limit inside of a cluster no attempt sets out. -/

namespace RegexMachine

namespace Subject

variable {subject : Subject} {direction : Direction} {position next other : Nat}

/-! ## Walking over code points -/

section

variable (codePoints : subject.granularity = .codePoint)
include codePoints

theorem StepsTo.back (step : subject.StepsTo direction position next)
    (cut : subject.IsCut position) :
    subject.IsCut next ∧ subject.StepsTo direction.opposite next position := by
  rcases Option.map_eq_some_iff.mp step with ⟨unit, found, rfl⟩
  rw [unitAhead_of_codePoints codePoints] at found
  rcases codePointAhead_back cut found with ⟨landed, back, again⟩
  rw [← unitAhead_of_codePoints codePoints] at again
  exact ⟨landed, Option.map_eq_some_iff.mpr ⟨unit, again, back⟩⟩

theorem Walks.back (walks : subject.Walks direction position other)
    (cut : subject.IsCut position) :
    subject.IsCut other ∧ subject.Walks direction.opposite other position := by
  induction walks with
  | refl => exact ⟨cut, .refl⟩
  | tail _ step induction =>
      rcases induction with ⟨cut, walks⟩
      rcases step.back codePoints cut with ⟨landed, back⟩
      exact ⟨landed, .head back walks⟩

theorem walks_forward (walks : Relation.ReflTransGen
      (subject.text.octets.CutAfter subject.upper) position other)
    (cut : subject.IsCut position) : subject.Walks .forward position other := by
  induction walks using Relation.ReflTransGen.head_induction_on with
  | refl => exact .refl
  | @head position _ step _ induction =>
      rcases step with ⟨inside, rfl⟩
      have found := codePointAhead_forward cut.covers inside
      rw [← unitAhead_of_codePoints codePoints] at found
      exact .head (Option.map_eq_some_iff.mpr ⟨_, found, rfl⟩) (induction (cut.next inside))

theorem walks_of_isCut (cut : subject.IsCut position) (direction : Direction) :
    subject.Walks direction (subject.origin direction) position := by
  cases direction with
  | forward => exact walks_forward codePoints cut.2 subject.isCut_lower
  | reverse =>
      have upper := subject.isCut_upper
      have rest : Relation.ReflTransGen (subject.text.octets.CutAfter subject.upper) position
          subject.upper := by
        rcases Octets.cutsAfter_total cut.2 upper.2 with path | path
        · exact path
        · rw [Nat.le_antisymm cut.le_last (Octets.le_of_cutsAfter path)]
      exact ((walks_forward codePoints rest cut).back codePoints cut).2

end

/-! ## Walking over clusters -/

section

variable (clusters : subject.granularity = .grapheme)
include clusters

theorem unitAhead_of_clusters (position : Nat) (direction : Direction) :
    subject.unitAhead position direction = subject.clusterAhead position direction := by
  rw [unitAhead, clusters]

theorem exists_stepsTo (covered : subject.covers position = true)
    (boundary : subject.isBoundary other = true) (otherCovered : subject.covers other = true)
    (before : direction.Precedes position other) :
    ∃ next, subject.StepsTo direction position next ∧ ¬direction.Precedes other next := by
  have within := covers_iff.mp otherCovered
  cases direction with
  | forward =>
      rcases SegmentedText.exists_boundaryAfter? boundary before within.2 with
        ⟨last, ahead, near⟩
      refine ⟨last, ?_, Nat.not_lt.mpr near⟩
      rw [StepsTo, unitAhead_of_clusters clusters, clusterAhead, if_pos covered]
      simp only [ahead, Option.map_some]
      rfl
  | reverse =>
      rcases SegmentedText.exists_boundaryBefore? boundary before within.1 with
        ⟨first, ahead, near⟩
      refine ⟨first, ?_, Nat.not_lt.mpr near⟩
      rw [StepsTo, unitAhead_of_clusters clusters, clusterAhead, if_pos covered]
      simp only [ahead, Option.map_some]
      rfl

theorem walks_of_isBoundary (covered : subject.covers position = true)
    (boundary : subject.isBoundary other = true) (otherCovered : subject.covers other = true)
    (onward : ¬direction.Precedes other position) :
    subject.Walks direction position other := by
  induction room : subject.room position direction using Nat.strongRecOn
    generalizing position with
  | ind room induction =>
      by_cases same : position = other
      · rw [same]
        exact .refl
      · have before : direction.Precedes position other := by
          cases direction <;> simp only [Direction.Precedes] at onward ⊢ <;> omega
        rcases exists_stepsTo clusters covered boundary otherCovered before with
          ⟨next, step, near⟩
        have landed := step.covers covered
        have shorter := room_of_precedes landed step.precedes
        exact .head step (induction _ (room ▸ shorter) landed near rfl)

end

/-! ## Starts -/

/-- The boundaries of units in the order in which the direction meets them. -/
def starts (subject : Subject) : Direction → List Nat
  | .forward => subject.unitBoundaries
  | .reverse => subject.unitBoundaries.reverse

theorem mem_starts : position ∈ subject.starts direction ↔ position ∈ subject.unitBoundaries := by
  cases direction with
  | forward => exact Iff.rfl
  | reverse => exact List.mem_reverse

theorem pairwise_starts (subject : Subject) (direction : Direction) :
    (subject.starts direction).Pairwise direction.Precedes := by
  cases direction with
  | forward => exact subject.pairwise_unitBoundaries
  | reverse => exact List.pairwise_reverse.mpr subject.pairwise_unitBoundaries

theorem walks_of_mem_starts (member : position ∈ subject.starts direction) :
    subject.Walks direction (subject.origin direction) position := by
  rw [mem_starts] at member
  cases kind : subject.granularity with
  | codePoint =>
      exact walks_of_isCut kind ((mem_unitBoundaries_of_codePoints kind).mp member) direction
  | grapheme =>
      rcases (mem_unitBoundaries_of_clusters kind).mp member with ⟨covered, boundary⟩
      have opening := subject.covers_origin direction
      apply walks_of_isBoundary kind opening boundary covered
      rw [covers_iff] at covered
      cases direction <;> simp only [Direction.Precedes, origin] <;> omega

/-- It comes to nothing else, except that it may set out from inside of a cluster. -/
theorem mem_starts_of_walks
    (walks : subject.Walks direction (subject.origin direction) position) :
    position ∈ subject.starts direction ∨
      subject.granularity = .grapheme ∧ subject.isBoundary position = false := by
  rw [mem_starts]
  cases kind : subject.granularity with
  | codePoint =>
      left
      rw [mem_unitBoundaries_of_codePoints kind]
      have opening : subject.IsCut (subject.origin direction) := by
        cases direction with
        | forward => exact subject.isCut_lower
        | reverse => exact subject.isCut_upper
      exact (walks.back kind opening).1
  | grapheme =>
      have covered : subject.covers position = true := by
        induction walks with
        | refl => exact subject.covers_origin direction
        | tail _ step induction => exact step.covers induction
      cases boundary : subject.isBoundary position with
      | true => exact .inl ((mem_unitBoundaries_of_clusters kind).mpr ⟨covered, boundary⟩)
      | false => exact .inr ⟨rfl, rfl⟩

end Subject

/-! ## Searches -/

/-- The scan has been decided at the first of the starts at which an attempt finds
something else than no match, or there is none. -/
def Scan.DecidedAmong (scan : Scan) (starts : List Nat) (verdict : Nat → MatchResult) : Prop :=
  match starts.find? fun start => (verdict start).status ≠ .noMatch with
  | some start => scan.result = .ok (verdict start)
  | none => ∃ result, scan.result = .ok result ∧ result.status = .noMatch

namespace Processor

variable {processor : Processor} {subject : Subject} {fuel : Nat}
  {verdict : Nat → MatchResult} {after : State → Nat → State}

section

variable [CharacterData]

/-- From inside of a cluster no attempt sets out, and there is no match. -/
theorem Judges.missed_inside (judges : processor.Judges subject fuel verdict after)
    (free : processor.busy = false) (same : subject.granularity = processor.program.granularity)
    {start : Nat} (covered : subject.covers start = true)
    (clusters : subject.granularity = .grapheme) (inside : subject.isBoundary start = false) :
    (verdict start).status = .noMatch := by
  have executed := judges.execute start covered processor.state fuel (Nat.le_refl fuel)
  have refused : ∃ refused,
      processor.refusal? subject start processor.program.entry = some refused := by
    rw [← Option.ne_none_iff_exists', ne_eq, refusal?_eq_none_iff]
    rintro ⟨-, admitted⟩
    have boundary : subject.isBoundary start = true := admitted.boundary clusters
    rw [inside] at boundary
    cases boundary
  rcases refused with ⟨refused, refusal⟩
  rw [show ({ processor with state := processor.state } : Processor) = processor from rfl,
    execute_of_refused free refusal rfl same] at executed
  simp only [Option.some.injEq, Prod.mk.injEq, Except.ok.injEq] at executed
  rw [← executed.1]
  rfl

theorem Judges.decidedAmong (judges : processor.Judges subject fuel verdict after)
    (free : processor.busy = false) (same : subject.granularity = processor.program.granularity)
    {start : Nat} {scan : Scan}
    (scans : processor.ScansTo subject verdict (subject.origin processor.program.entry) start)
    (result : scan.result = .ok (verdict start)) :
    scan.DecidedAmong (subject.starts processor.program.entry) verdict := by
  rw [Scan.DecidedAmong]
  by_cases missed : (verdict start).status = .noMatch
  · have none : (subject.starts processor.program.entry).find?
        (fun start => (verdict start).status ≠ .noMatch) = none := by
      rw [List.find?_eq_none]
      intro other member
      simpa using (scans.missed_all missed (Subject.walks_of_mem_starts member)).2
    rw [none]
    exact ⟨_, result, missed⟩
  · have member : start ∈ subject.starts processor.program.entry := by
      rcases Subject.mem_starts_of_walks scans.walks with member | ⟨clusters, inside⟩
      · exact member
      · exact absurd (judges.missed_inside free same scans.covered clusters inside) missed
    rcases List.append_of_mem member with ⟨before, behind, split⟩
    have ordered := subject.pairwise_starts processor.program.entry
    rw [split, List.pairwise_append] at ordered
    have first : (subject.starts processor.program.entry).find?
        (fun start => (verdict start).status ≠ .noMatch) = some start := by
      rw [List.find?_eq_some_iff_append]
      refine ⟨by simpa using missed, before, behind, split, fun other among => ?_⟩
      have earlier := ordered.2.2 other among start List.mem_cons_self
      have visited : other ∈ subject.starts processor.program.entry := by
        rw [split]
        exact List.mem_append_left _ among
      simpa using (scans.missed (Subject.walks_of_mem_starts visited) earlier).2
    rw [first]
    exact result

/-- A search with a compiled program returns what an attempt returns at the first boundary
of a unit between the limits, in the order of the direction, at which it is not that there
is no match, and no match if there is none such. -/
theorem search_decidedAmong_starts {fragment : Fragment} {entry : Direction}
    {granularity : Granularity} {program : Program} {options : Options} {text : SegmentedText}
    (compiled : fragment.compile entry granularity = .ok program)
    (limits : options.subject text granularity = .ok subject) :
    ∃ processor fuel verdict scan,
      Processor.prepare program options text = .ok (processor, subject) ∧
      (subject.starts entry).Pairwise entry.Precedes ∧
      (∀ start ∈ subject.starts entry, ∀ left more, fuel ≤ more →
        ({ processor with state := left }.execute more subject start entry).map Prod.fst =
          some (.ok (verdict start))) ∧
      (∀ more, fuel ≤ more → processor.search more subject = some scan) ∧
      scan.DecidedAmong (subject.starts entry) verdict := by
  have compiles := Fragment.compiles compiled
  have granularities := compiles.granularity
  subst granularities
  have entries := compiles.entry
  subst entries
  let processor : Processor := { program, options }
  have same := Subject.granularity_of_within limits
  have decides : ∃ fuel verdict after, processor.Judges subject fuel verdict after :=
    exists_judges compiles rfl same
  rcases decides with ⟨fuel, verdict, after, judges⟩
  rcases judges.scanFrom (subject.covers_origin program.entry) processor.state [] with
    ⟨start, before, final, scans, ran⟩
  refine ⟨processor, fuel, verdict, _, prepare_eq compiles.valid limits,
    subject.pairwise_starts program.entry, ?_, ran,
    judges.decidedAmong rfl same scans rfl⟩
  intro start member left more enough
  have covered := Subject.covers_of_mem_unitBoundaries (Subject.mem_starts.mp member)
  exact congrArg (Option.map Prod.fst) (judges.execute start covered left more enough)

def accented : SegmentedText := Subject.accentedLetter.text

def midClusterOptions : Options where
  upper := some 3

end

open scoped Repertoire in
/-- The upper limit lies inside of a cluster, so a search in reverse first tries the
boundary in front of it. -/
theorem accented_decidedAmong :
    ∃ program processor subject fuel verdict scan,
      (Fragment.any .none).compile .reverse .grapheme = .ok program ∧
      Processor.prepare program midClusterOptions accented = .ok (processor, subject) ∧
      subject.starts .reverse = [1, 0] ∧ processor.search fuel subject = some scan ∧
      scan.DecidedAmong [1, 0] verdict := by
  let subject : Subject := ⟨accented, 0, 3, .grapheme, by decide, by decide⟩
  have compiles : ∃ program,
      (Fragment.any .none).compile .reverse .grapheme = .ok program := ⟨_, by cbv⟩
  rcases compiles with ⟨program, compiled⟩
  have limits : midClusterOptions.subject accented .grapheme = .ok subject := rfl
  have starts : subject.starts .reverse = [1, 0] := by cbv
  rcases search_decidedAmong_starts compiled limits with
    ⟨processor, fuel, verdict, scan, prepared, -, -, searched, decided⟩
  rw [starts] at decided
  exact ⟨program, processor, subject, fuel, verdict, scan, compiled, prepared, starts,
    searched fuel (Nat.le_refl fuel), decided⟩

end Processor

end RegexMachine
