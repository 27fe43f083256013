import RegexMachine.Proofs.Pattern.Searches
import RegexMachine.Rune.Repertoire

/-! # Searches within a budget

With a budget an attempt comes to the verdict that it comes to without one, or else is
broken off. The first attempt that is broken off ends a search for every match, so that
what the search has found until then is what it finds first without a budget. -/

namespace RegexMachine

namespace Processor

variable {processor limited : Processor} {subject : Subject} {fuel : Nat}
  {verdict other : Nat → MatchResult} {fragment : Fragment} {entry : Direction}
  {granularity : Granularity} {program : Program} {options : Options} {text : SegmentedText}

/-- The first verdict on a start is the other one, unless the budget was exceeded. -/
def Curtails (subject : Subject) (verdict other : Nat → MatchResult) : Prop :=
  ∀ start, subject.covers start = true →
    (verdict start).status ≠ .budgetExceeded → verdict start = other start

theorem Judges.curtails [CharacterData] {budget enough : Nat} {after later : State → Nat → State}
    (judges : (processor.budgeted budget).Judges subject fuel verdict after)
    (fully : (processor.budgeted 0).Judges subject enough other later)
    (valid : processor.program.Valid) (positive : 0 < budget) :
    Curtails subject verdict other := by
  intro start covered unbroken
  have decided := judges.execute start covered processor.state
  have decidedFully := fully.execute start covered processor.state
  rcases endsAfter_or_exceeded valid positive subject start processor.program.entry with
    ⟨count, report, _, -, unlimited, within⟩ | ⟨-, _, exceeded⟩
  · have first := (decided (max fuel count) (Nat.le_max_left _ _)).symm.trans
      ((within _).trans (if_pos (Nat.le_max_right _ _)))
    have second := (decidedFully (max enough count) (Nat.le_max_left _ _)).symm.trans
      ((unlimited _).trans (if_pos (Nat.le_max_right _ _)))
    simp only [Option.some.injEq, Prod.mk.injEq] at first second
    exact Except.ok.inj (first.1.trans second.1.symm)
  · have broken := (decided (max fuel (budget + 1)) (Nat.le_max_left _ _)).symm.trans
      ((exceeded _).trans (if_pos (Nat.le_max_right _ _)))
    simp only [Option.some.injEq, Prod.mk.injEq, Except.ok.injEq] at broken
    rw [broken.1] at unbroken
    exact absurd rfl unbroken

/-! ## One scan -/

namespace ScansTo

variable {position start next : Nat}

theorem eq_of_walks (scans : processor.ScansTo subject verdict position start)
    (again : processor.ScansTo subject verdict position next)
    (walks : subject.Walks processor.program.entry start next) : start = next := by
  rcases walks.eq_or_precedes with same | before
  · exact same
  · have missed := again.missed scans.walks before
    cases walks using Relation.ReflTransGen.head_induction_on with
    | refl => rfl
    | head step _ =>
        obtain ⟨unit, found, -⟩ := Option.map_eq_some_iff.mp step
        rw [scans.ends missed.2] at found
        cases found

theorem unique (scans : processor.ScansTo subject verdict position start)
    (again : processor.ScansTo subject verdict position next) : start = next := by
  rcases scans.walks.total again.walks with beyond | before
  · exact scans.eq_of_walks again beyond
  · exact (again.eq_of_walks scans before).symm

theorem fully (scans : limited.ScansTo subject verdict position start)
    (same : limited.program = processor.program)
    (curtails : Curtails subject verdict other)
    (unbroken : (verdict start).status ≠ .budgetExceeded) :
    processor.ScansTo subject other position start where
  covered := scans.covered
  path := by
    refine Relation.ReflTransGen.mono (fun position next passes => ?_) _ _ scans.path
    obtain ⟨⟨covered, missed⟩, step⟩ := passes
    have agree := curtails position covered (by rw [missed]; nofun)
    exact ⟨⟨covered, agree ▸ missed⟩, same ▸ step⟩
  ends missed := by
    have agree := curtails start scans.covered unbroken
    rw [← same]
    exact scans.ends (agree ▸ missed)

end ScansTo

/-! ## One scan after the other -/

namespace Sweeps

variable {position start : Nat} {scans : List Scan} {found : List MatchResult}

theorem of_accepted (sweeps : processor.Sweeps subject verdict position scans found)
    (first : processor.ScansTo subject verdict position start)
    (accepted : (verdict start).status = .accepted) :
    ∃ later, found = verdict start :: later ∧
      ∀ next, subject.behind? processor.program.entry (verdict start).range = some next →
        ∃ others, processor.Sweeps subject verdict next others later := by
  cases sweeps with
  | missed decided unaccepted =>
      cases decided.unique first
      exact absurd accepted unaccepted
  | ended decided _ stuck =>
      cases decided.unique first
      refine ⟨[], rfl, fun next resumes => ?_⟩
      rw [stuck] at resumes
      cases resumes
  | @resumed _ _ _ _ others _ decided _ resumes sweeps =>
      cases decided.unique first
      refine ⟨_, rfl, fun next again => ?_⟩
      cases resumes.symm.trans again
      exact ⟨others, sweeps⟩

/-- What is found within a budget is what is found first without one. -/
theorem isPrefix {whole : List Scan} {all : List MatchResult}
    (sweeps : limited.Sweeps subject verdict position scans found)
    (same : limited.program = processor.program)
    (curtails : Curtails subject verdict other)
    (fully : processor.Sweeps subject other position whole all) : found <+: all := by
  have first : ∀ {position start : Nat}, limited.ScansTo subject verdict position start →
      (verdict start).status = .accepted → ∀ {whole : List Scan} {all : List MatchResult},
        processor.Sweeps subject other position whole all →
          ∃ later, all = verdict start :: later ∧
            ∀ next,
              subject.behind? limited.program.entry (verdict start).range = some next →
              ∃ others, processor.Sweeps subject other next others later := by
    intro position start scans accepted whole all fully
    have unbroken : (verdict start).status ≠ .budgetExceeded := by
      rw [accepted]
      nofun
    have agree := curtails start scans.covered unbroken
    rw [same, agree]
    exact fully.of_accepted (scans.fully same curtails unbroken) (agree ▸ accepted)
  induction sweeps generalizing whole all with
  | missed => exact List.nil_prefix
  | ended decided accepted stuck =>
      obtain ⟨later, rfl, -⟩ := first decided.toScansTo accepted fully
      exact ⟨later, rfl⟩
  | resumed decided accepted resumes _ induction =>
      obtain ⟨later, rfl, onward⟩ := first decided.toScansTo accepted fully
      obtain ⟨others, rest⟩ := onward _ resumes
      exact List.cons_prefix_cons.mpr ⟨rfl, induction rest⟩

end Sweeps

/-! ## A search of a text -/

section

variable [CharacterData]

def findAll (fuel : Nat) (program : Program) (options : Options) (text : SegmentedText) :
    Option (Except Fault (List MatchResult)) :=
  match prepare program options text with
  | .error fault => some (.error fault)
  | .ok (processor, subject) => (processor.searchAll fuel subject).map Scan.matches

theorem findAll_eq (compiles : fragment.Compiles program.entry granularity program)
    (limits : options.subject text granularity = .ok subject) (budget : Nat) :
    ∃ fuel verdict after scans found,
      (({ program, options } : Processor).budgeted budget).Judges subject fuel verdict after ∧
      (({ program, options } : Processor).budgeted budget).Sweeps subject verdict
        (subject.origin program.entry) scans found ∧
      ∀ more, fuel ≤ more →
        findAll more program { options with budget } text = some (.ok found) := by
  have granularities := compiles.granularity
  subst granularities
  let processor := ({ program, options } : Processor).budgeted budget
  obtain ⟨fuel, verdict, after, judges⟩ : ∃ fuel verdict after,
      processor.Judges subject fuel verdict after :=
    exists_judges compiles rfl (Subject.granularity_of_within limits)
  obtain ⟨scans, found, enough, sweeps, sufficient, ran⟩ := judges.searchAll
  refine ⟨enough, verdict, after, scans, found, judges.mono sufficient, sweeps,
    fun more plenty => ?_⟩
  have prepared : prepare program { options with budget } text = .ok (processor, subject) :=
    prepare_eq compiles.valid limits
  rw [findAll, prepared]
  simp only [ran more plenty, Option.map_some, sweeps.matches_eq]

theorem findAll_prefix (compiled : fragment.compile entry granularity = .ok program)
    (limits : options.subject text granularity = .ok subject) {budget : Nat}
    (positive : 0 < budget) :
    ∃ fuel found all, found <+: all ∧ ∀ more, fuel ≤ more →
      findAll more program { options with budget } text = some (.ok found) ∧
        findAll more program { options with budget := 0 } text = some (.ok all) := by
  have compiles := Fragment.compiles compiled
  have entries := compiles.entry
  subst entries
  obtain ⟨fuel, verdict, after, scans, found, judges, sweeps, ran⟩ :=
    findAll_eq compiles limits budget
  obtain ⟨enough, other, later, whole, all, fullJudges, fullSweeps, fullRan⟩ :=
    findAll_eq compiles limits 0
  have curtails := judges.curtails fullJudges compiles.valid positive
  have same : (({ program, options } : Processor).budgeted budget).program =
      (({ program, options } : Processor).budgeted 0).program := rfl
  refine ⟨max fuel enough, found, all, sweeps.isPrefix same curtails fullSweeps,
    fun more plenty => ⟨ran more ?_, fullRan more ?_⟩⟩
  · exact Nat.le_trans (Nat.le_max_left _ _) plenty
  · exact Nat.le_trans (Nat.le_max_right _ _) plenty

/-- A budget only truncates. It leaves an execution that ends within it as it is, and
breaks off every other one after just as many instructions as it allows. So a search with
a budget for every match returns the first ones of those that it returns without one. -/
theorem budget_truncates {budget : Nat} (positive : 0 < budget) :
    (∀ (processor : Processor) (subject : Subject) (start : Nat) (direction : Direction),
      processor.program.validate = .ok () →
        processor.Truncates budget subject start direction) ∧
    ∀ (fragment : Fragment) (entry : Direction) (granularity : Granularity)
      (program : Program) (options : Options) (text : SegmentedText) (subject : Subject),
      fragment.compile entry granularity = .ok program →
      options.subject text granularity = .ok subject →
        ∃ fuel found all, found <+: all ∧ ∀ more, fuel ≤ more →
          findAll more program { options with budget } text = some (.ok found) ∧
            findAll more program { options with budget := 0 } text = some (.ok all) :=
  ⟨fun _ subject start direction validated =>
      truncates (Program.validate_eq_ok_iff.mp validated) positive subject start direction,
    fun _ _ _ _ _ _ _ compiled limits => findAll_prefix compiled limits positive⟩

def endless : Processor where
  program := { instructions := #[.jump ⟨0⟩, .accept], targets := #[some 0] }
  options := {}

end

open scoped Repertoire in
theorem endless_truncated : (∃ after,
    (endless.budgeted 5).EndsAfter (.whole (.byUnits #[]) .codePoint) 0 .forward 6
      (.ok ⟨.budgetExceeded, .empty, 5⟩) after) ∧
    ∃ fuel found all program, unfollowedRun.compile .reverse .codePoint = .ok program ∧
      found <+: all ∧
      findAll fuel program { innerOptions with budget := 5 } innerSubject.text =
        some (.ok found) ∧
      findAll fuel program { innerOptions with budget := 0 } innerSubject.text =
        some (.ok all) := by
  have validated : endless.program.validate = .ok () := by cbv
  have compiled : unfollowedRun.compile .reverse .codePoint =
      .ok ((unfollowedRun.compile .reverse .codePoint).toOption.getD {}) := by
    cbv
  have limits : innerOptions.subject innerSubject.text .codePoint = .ok innerSubject := rfl
  obtain ⟨truncates, prefixes⟩ : _ ∧ _ := budget_truncates (show 0 < 5 by decide)
  constructor
  · apply (truncates endless (.whole (.byUnits #[]) .codePoint) 0 .forward validated).beyond
    rintro ⟨count, report, after, short, ends⟩
    have unended : (endless.budgeted 0).execute 5 (.whole (.byUnits #[]) .codePoint) 0
        .forward = none := by
      cbv
    rw [ends 5, if_pos short] at unended
    cases unended
  · obtain ⟨fuel, found, all, shorter, ran⟩ := prefixes _ _ _ _ _ _ _ compiled limits
    exact ⟨fuel, found, all, _, compiled, shorter, ran fuel (Nat.le_refl _)⟩

end Processor

end RegexMachine
