import RegexMachine.Proofs.Pattern.Lookbehind
import RegexMachine.Proofs.Pattern.Scans
import RegexMachine.Rune.Repertoire

/-! # Searching for every match

Every match that is accepted lies onward from its start, so the scans that resume
behind one match after the other come to an end. No start between them has been left
out. -/

namespace RegexMachine

namespace Span

theorem far_eq_near {span : Span} (empty : span.first = span.last) (direction : Direction) :
    span.far direction = span.near direction := by
  cases direction <;> simp only [far, near, empty]

theorem far_ne_near {span : Span} (nonempty : span.first ≠ span.last)
    (direction : Direction) : span.far direction ≠ span.near direction := by
  cases direction
  · exact nonempty.symm
  · exact nonempty

/-- In the order in which a scan in the direction meets them, the later span begins
behind where the earlier one begins, and not before where it ends. -/
def Leads (earlier later : Span) : Direction → Prop
  | .forward => earlier.first < later.first ∧ earlier.last ≤ later.first
  | .reverse => later.last < earlier.last ∧ later.last ≤ earlier.first

theorem leads_iff {earlier later : Span} {direction : Direction} :
    earlier.Leads later direction ↔
      direction.Precedes (earlier.near direction) (later.near direction) ∧
        ¬direction.Precedes (later.near direction) (earlier.far direction) := by
  cases direction <;> simp only [Leads, Direction.Precedes, near, far, Nat.not_lt]

end Span

/-! ## One scan after the other -/

/-- The position behind a match: its far end or, if it is empty, the end of the unit
ahead of there. Behind an empty match that no unit is ahead of there is no position. -/
def Subject.behind? (subject : Subject) (direction : Direction) (range : Span) : Option Nat :=
  if range.first = range.last then
    (subject.unitAhead (range.far direction) direction).map (·.landing direction)
  else some (range.far direction)

theorem Processor.resumption?_eq (processor : Processor) (subject : Subject) (range : Span) :
    processor.resumption? subject range =
      subject.behind? processor.program.entry range := by
  simp only [resumption?, Subject.behind?, stepOn?, Span.isEmpty, beq_iff_eq]
  cases processor.program.entry <;> rfl

structure Scan.Decided (scan : Scan) (processor : Processor) (subject : Subject)
    (verdict : Nat → MatchResult) (position start : Nat) : Prop
    extends processor.ScansTo subject verdict position start where
  tried : scan.starts.head? = some start
  result : scan.result = .ok (verdict start)

namespace Processor

/-- Scans from the position on, each resuming behind the match of the one before, and
the matches that they find. -/
inductive Sweeps (processor : Processor) (subject : Subject) (verdict : Nat → MatchResult) :
    Nat → List Scan → List MatchResult → Prop
  | missed {position start : Nat} {scan : Scan}
      (decided : scan.Decided processor subject verdict position start)
      (unaccepted : (verdict start).status ≠ .accepted) :
      Sweeps processor subject verdict position [scan] []
  | ended {position start : Nat} {scan : Scan}
      (decided : scan.Decided processor subject verdict position start)
      (accepted : (verdict start).status = .accepted)
      (stuck : subject.behind? processor.program.entry (verdict start).range = none) :
      Sweeps processor subject verdict position [scan] [verdict start]
  | resumed {position start next : Nat} {scan : Scan} {scans : List Scan}
      {found : List MatchResult}
      (decided : scan.Decided processor subject verdict position start)
      (accepted : (verdict start).status = .accepted)
      (resumes : subject.behind? processor.program.entry (verdict start).range = some next)
      (others : Sweeps processor subject verdict next scans found) :
      Sweeps processor subject verdict position (scan :: scans) (verdict start :: found)

variable {processor : Processor} {subject : Subject} {fuel : Nat}
  {verdict : Nat → MatchResult} {after : State → Nat → State}

section

variable [CharacterData]

theorem Judges.resumption (judges : processor.Judges subject fuel verdict after)
    {start next : Nat} (covered : subject.covers start = true)
    (accepted : (verdict start).status = .accepted)
    (resumes : subject.behind? processor.program.entry (verdict start).range = some next) :
    subject.covers next = true ∧ processor.program.entry.Precedes start next ∧
      ¬processor.program.entry.Precedes next
        ((verdict start).range.far processor.program.entry) := by
  obtain ⟨near, onward⟩ := judges.onward start covered accepted
  unfold Subject.behind? at resumes
  split at resumes
  · next empty =>
      rw [Span.far_eq_near empty, near] at resumes ⊢
      have step : subject.StepsTo processor.program.entry start next := resumes
      exact ⟨step.covers covered, step.precedes, step.precedes.asymm⟩
  · next nonempty =>
      cases resumes
      have moved := Span.far_ne_near nonempty processor.program.entry
      rw [near] at moved
      exact ⟨onward.covers covered, onward.precedes moved, Direction.Precedes.irrefl _ _⟩

theorem scansFrom_succ {position : Nat} {scan : Scan} {result : MatchResult}
    (scanned : processor.scan fuel subject position = some scan)
    (decided : scan.result = .ok result) (rounds : Nat) (earlier : List Scan) :
    scansFrom fuel subject (rounds + 1) processor earlier position =
      if result.status = .accepted then
        (subject.behind? scan.processor.program.entry result.range).elim
          (some (scan :: earlier))
          (scansFrom fuel subject rounds scan.processor (scan :: earlier))
      else some (scan :: earlier) := by
  rw [scansFrom, scanned, ← resumption?_eq]
  simp only [decided]
  cases scan.processor.resumption? subject result.range <;> rfl

theorem scansFrom_succ_of_fault {position : Nat} {scan : Scan} {fault : Fault}
    (scanned : processor.scan fuel subject position = some scan)
    (stopped : scan.result = .error fault) (rounds : Nat) (earlier : List Scan) :
    scansFrom fuel subject (rounds + 1) processor earlier position =
      some (scan :: earlier) := by
  rw [scansFrom, scanned]
  simp only [stopped]

/-- More fuel and more rounds never change what the scans have found. -/
theorem scansFrom_mono {more rounds others : Nat} {earlier scans : List Scan}
    {position : Nat}
    (ran : scansFrom fuel subject rounds processor earlier position = some scans)
    (enough : fuel ≤ more) (spare : rounds ≤ others) :
    scansFrom more subject others processor earlier position = some scans := by
  induction rounds generalizing others processor earlier position with
  | zero => cases ran
  | succ rounds induction =>
      obtain ⟨others, rfl⟩ : ∃ rest, others = rest + 1 := ⟨others - 1, by omega⟩
      cases scanned : processor.scan fuel subject position with
      | none =>
          rw [scansFrom, scanned] at ran
          cases ran
      | some scan =>
          have again : processor.scan more subject position = some scan :=
            scanFrom_mono scanned enough
          cases decided : scan.result with
          | error fault =>
              rw [scansFrom_succ_of_fault again decided]
              rwa [scansFrom_succ_of_fault scanned decided] at ran
          | ok result =>
              rw [scansFrom_succ again decided]
              rw [scansFrom_succ scanned decided] at ran
              split at ran
              · next accepted =>
                  rw [if_pos accepted]
                  cases resumes : subject.behind? scan.processor.program.entry result.range with
                  | none => rwa [resumes] at ran
                  | some next =>
                      rw [resumes] at ran
                      exact induction ran (by omega)
              · next unaccepted => rwa [if_neg unaccepted]

theorem searchAll_mono {more : Nat} {scans : List Scan}
    (searched : processor.searchAll fuel subject = some scans) (enough : fuel ≤ more) :
    processor.searchAll more subject = some scans := by
  obtain ⟨found, ran, rfl⟩ := Option.map_eq_some_iff.mp searched
  exact Option.map_eq_some_iff.mpr ⟨found, scansFrom_mono ran enough enough, rfl⟩

theorem Judges.scansFrom (judges : processor.Judges subject fuel verdict after)
    {position : Nat} (covered : subject.covers position = true) (left : State)
    (earlier : List Scan) :
    ∃ scans found, processor.Sweeps subject verdict position scans found ∧
      ∀ more rounds, fuel ≤ more → subject.room position processor.program.entry < rounds →
        Processor.scansFrom more subject rounds { processor with state := left } earlier position =
          some (scans.reverse ++ earlier) := by
  induction room : subject.room position processor.program.entry using Nat.strongRecOn
    generalizing position left earlier with
  | ind size induction =>
      obtain ⟨start, before, final, scans, scanned⟩ := judges.scanFrom covered left []
      let scan : Scan :=
        ⟨start :: before, .ok (verdict start), { processor with state := final }⟩
      have decided : scan.Decided processor subject verdict position start := ⟨scans, rfl, rfl⟩
      have scanned : ∀ more, fuel ≤ more →
          Processor.scan { processor with state := left } more subject position = some scan :=
        scanned
      have round := fun more rounds (enough : fuel ≤ more) =>
        scansFrom_succ (scanned more enough) decided.result rounds earlier
      by_cases accepted : (verdict start).status = .accepted
      · cases resumes : subject.behind? processor.program.entry (verdict start).range with
        | none =>
            have stuck : subject.behind? scan.processor.program.entry
                (verdict start).range = none := resumes
            refine ⟨[scan], [verdict start], .ended decided accepted resumes, ?_⟩
            intro more rounds enough spare
            obtain ⟨rounds, rfl⟩ : ∃ rest, rounds = rest + 1 := ⟨rounds - 1, by omega⟩
            rw [round more rounds enough, if_pos accepted, stuck]
            rfl
        | some next =>
            have onward : subject.behind? scan.processor.program.entry
                (verdict start).range = some next := resumes
            obtain ⟨inside, behind, -⟩ := judges.resumption scans.covered accepted resumes
            have shorter := Subject.room_of_precedes inside
              (behind.of_not scans.walks.not_precedes)
            obtain ⟨others, found, sweeps, ran⟩ := induction _ (room ▸ shorter) inside final
              (scan :: earlier) rfl
            refine ⟨scan :: others, verdict start :: found,
              .resumed decided accepted resumes sweeps, ?_⟩
            intro more rounds enough spare
            obtain ⟨rounds, rfl⟩ : ∃ rest, rounds = rest + 1 := ⟨rounds - 1, by omega⟩
            rw [round more rounds enough, if_pos accepted, onward, Option.elim_some,
              ran more rounds enough (by omega), List.reverse_cons, List.append_assoc]
            rfl
      · refine ⟨[scan], [], .missed decided accepted, ?_⟩
        intro more rounds enough spare
        obtain ⟨rounds, rfl⟩ : ∃ rest, rounds = rest + 1 := ⟨rounds - 1, by omega⟩
        rw [round more rounds enough, if_neg accepted]
        rfl

/-! ## What a search has found -/

def resumeAfter? (processor : Processor) (subject : Subject) (position : Nat) :
    Option MatchResult → Option Nat
  | none => some position
  | some found => subject.behind? processor.program.entry found.range

omit [CharacterData] in
theorem resumeAfter?_cons {first : MatchResult} {next : Nat}
    (resumes : subject.behind? processor.program.entry first.range = some next) (position : Nat)
    (found : List MatchResult) :
    processor.resumeAfter? subject position (first :: found).getLast? =
      processor.resumeAfter? subject next found.getLast? := by
  rw [List.getLast?_cons]
  cases found.getLast? with
  | none => exact resumes
  | some last => rfl

namespace Sweeps

variable {position : Nat} {scans : List Scan} {found : List MatchResult}

omit [CharacterData] in
theorem matches_eq (sweeps : processor.Sweeps subject verdict position scans found) :
    Scan.matches scans = .ok found := by
  induction sweeps with
  | missed decided unaccepted =>
      rw [Scan.matches, decided.result]
      exact congrArg Except.ok (if_neg unaccepted)
  | ended decided accepted stuck =>
      rw [Scan.matches, decided.result]
      exact congrArg Except.ok (if_pos accepted)
  | resumed decided accepted resumes others induction =>
      rw [Scan.matches, decided.result, induction]
      exact congrArg Except.ok (if_pos accepted)

theorem found_at (judges : processor.Judges subject fuel verdict after)
    (sweeps : processor.Sweeps subject verdict position scans found) :
    ∀ one ∈ found, one.status = .accepted ∧
      subject.covers (one.range.near processor.program.entry) = true ∧
      verdict (one.range.near processor.program.entry) = one ∧
      ∃ scan ∈ scans, scan.result = .ok one ∧
        scan.starts.head? = some (one.range.near processor.program.entry) := by
  have first : ∀ {position start : Nat} {scan : Scan} {scans : List Scan},
      scan.Decided processor subject verdict position start →
      (verdict start).status = .accepted → scan ∈ scans →
        (verdict start).status = .accepted ∧
          subject.covers ((verdict start).range.near processor.program.entry) = true ∧
          verdict ((verdict start).range.near processor.program.entry) = verdict start ∧
          ∃ scan ∈ scans, scan.result = .ok (verdict start) ∧
            scan.starts.head? = some ((verdict start).range.near processor.program.entry) := by
    intro position start scan scans decided accepted member
    rw [(judges.onward start decided.covered accepted).1]
    exact ⟨accepted, decided.covered, rfl, scan, member, decided.result, decided.tried⟩
  induction sweeps with
  | missed => exact nofun
  | ended decided accepted stuck =>
      intro one member
      cases List.mem_singleton.mp member
      exact first decided accepted List.mem_cons_self
  | resumed decided accepted resumes others induction =>
      intro one member
      rcases List.mem_cons.mp member with rfl | later
      · exact first decided accepted List.mem_cons_self
      · obtain ⟨status, covered, same, scan, among, scanned⟩ := induction one later
        exact ⟨status, covered, same, scan, List.mem_cons_of_mem _ among, scanned⟩

theorem not_precedes (judges : processor.Judges subject fuel verdict after)
    (sweeps : processor.Sweeps subject verdict position scans found) :
    ∀ one ∈ found, ¬processor.program.entry.Precedes
      (one.range.near processor.program.entry) position := by
  induction sweeps with
  | missed => exact nofun
  | @ended position start _ decided accepted stuck =>
      intro one member
      cases List.mem_singleton.mp member
      rw [(judges.onward start decided.covered accepted).1]
      exact decided.walks.not_precedes
  | @resumed position start _ _ _ _ decided accepted resumes others induction =>
      intro one member
      rcases List.mem_cons.mp member with rfl | later
      · rw [(judges.onward start decided.covered accepted).1]
        exact decided.walks.not_precedes
      · have onward := (judges.resumption decided.covered accepted resumes).2.1
        have resumed : processor.program.entry.Precedes position _ :=
          onward.of_not decided.walks.not_precedes
        exact fun before => induction one later (before.trans resumed)

theorem pairwise (judges : processor.Judges subject fuel verdict after)
    (sweeps : processor.Sweeps subject verdict position scans found) :
    found.Pairwise fun earlier later =>
      earlier.range.Leads later.range processor.program.entry := by
  induction sweeps with
  | missed => exact .nil
  | ended => exact List.pairwise_singleton _ _
  | @resumed position start next _ _ _ decided accepted resumes others induction =>
      refine List.pairwise_cons.mpr ⟨fun later member => ?_, induction⟩
      obtain ⟨-, onward, beyond⟩ := judges.resumption decided.covered accepted resumes
      have behind := others.not_precedes judges later member
      rw [Span.leads_iff, (judges.onward start decided.covered accepted).1]
      exact ⟨onward.trans_not behind, fun before => beyond (before.of_not behind)⟩

theorem missed_between (judges : processor.Judges subject fuel verdict after)
    (sweeps : processor.Sweeps subject verdict position scans found)
    {before later : List MatchResult} {one : MatchResult}
    (split : found = before ++ one :: later) :
    ∃ resume, processor.resumeAfter? subject position before.getLast? = some resume ∧
      subject.Walks processor.program.entry resume
        (one.range.near processor.program.entry) ∧
      ∀ other, subject.Walks processor.program.entry resume other →
        processor.program.entry.Precedes other (one.range.near processor.program.entry) →
          Misses subject verdict other := by
  have first : ∀ {position start : Nat} {scan : Scan},
      scan.Decided processor subject verdict position start →
      (verdict start).status = .accepted →
        ∃ resume, processor.resumeAfter? subject position none = some resume ∧
          subject.Walks processor.program.entry resume
            ((verdict start).range.near processor.program.entry) ∧
          ∀ other, subject.Walks processor.program.entry resume other →
            processor.program.entry.Precedes other
                ((verdict start).range.near processor.program.entry) →
              Misses subject verdict other := by
    intro position start scan decided accepted
    rw [(judges.onward start decided.covered accepted).1]
    exact ⟨position, rfl, decided.walks, fun other => decided.missed⟩
  induction sweeps generalizing before with
  | missed => cases before <;> cases split
  | ended decided accepted stuck =>
      cases before with
      | nil =>
          cases split
          exact first decided accepted
      | cons head before => simp at split
  | resumed decided accepted resumes others induction =>
      cases before with
      | nil =>
          cases split
          exact first decided accepted
      | cons head before =>
          cases split
          rw [resumeAfter?_cons resumes]
          exact induction rfl

omit [CharacterData] in
/-- Nor behind the last match, unless the search has been broken off. -/
theorem missed_behind
    (sweeps : processor.Sweeps subject verdict position scans found)
    (unbroken : ∀ scan ∈ scans, ∀ result, scan.result = .ok result →
      result.status ≠ .budgetExceeded) {resume other : Nat}
    (resumes : processor.resumeAfter? subject position found.getLast? = some resume)
    (walks : subject.Walks processor.program.entry resume other) :
    Misses subject verdict other := by
  induction sweeps with
  | @missed position start scan decided unaccepted =>
      cases resumes
      have missed : (verdict start).status = .noMatch := by
        have within := unbroken scan List.mem_cons_self _ decided.result
        cases status : (verdict start).status with
        | accepted => exact absurd status unaccepted
        | noMatch => rfl
        | budgetExceeded => exact absurd status within
      exact decided.missed_all missed walks
  | ended decided accepted stuck =>
      rw [List.getLast?_singleton] at resumes
      have resumes : subject.behind? processor.program.entry _ = some resume := resumes
      rw [stuck] at resumes
      cases resumes
  | resumed decided accepted onward others induction =>
      rw [resumeAfter?_cons onward] at resumes
      exact induction (fun scan member => unbroken scan (List.mem_cons_of_mem _ member)) resumes

end Sweeps

/-- What a search promises of its scans and of the matches that these have found. -/
structure Finds (processor : Processor) (subject : Subject) (fuel : Nat) (scans : List Scan)
    (found : List MatchResult) : Prop where
  /-- Every match was accepted by an attempt at the near end of its range. -/
  accepted : ∀ one ∈ found, one.status = .accepted ∧
    (∃ scan ∈ scans, scan.result = .ok one ∧
      scan.starts.head? = some (one.range.near processor.program.entry)) ∧
    ∃ after, ∀ more, fuel ≤ more →
      processor.execute more subject (one.range.near processor.program.entry)
        processor.program.entry = some (.ok one, after)
  /-- The matches are in order and apart from each other. -/
  ordered : found.Pairwise fun earlier later =>
    earlier.range.Leads later.range processor.program.entry
  /-- No start is accepted on the way from where the search resumes to the next match. -/
  between : ∀ before one later, found = before ++ one :: later →
    ∃ resume, processor.resumeAfter? subject (subject.origin processor.program.entry)
        before.getLast? = some resume ∧
      subject.Walks processor.program.entry resume
        (one.range.near processor.program.entry) ∧
      ∀ other, subject.Walks processor.program.entry resume other →
        processor.program.entry.Precedes other (one.range.near processor.program.entry) →
          ¬processor.Accepts subject other processor.program.entry
  /-- No start is accepted behind the last match, unless an attempt went beyond the
  budget. -/
  behind : (∀ scan ∈ scans, ∀ result, scan.result = .ok result →
      result.status ≠ .budgetExceeded) →
    ∀ resume, processor.resumeAfter? subject (subject.origin processor.program.entry)
        found.getLast? = some resume →
      ∀ other, subject.Walks processor.program.entry resume other →
        ¬processor.Accepts subject other processor.program.entry

theorem Judges.not_accepts (judges : processor.Judges subject fuel verdict after) {start : Nat}
    (missed : Misses subject verdict start) :
    ¬processor.Accepts subject start processor.program.entry := by
  intro accepts
  obtain ⟨enough, result, final, executed, accepted⟩ := accepts
  have decided := judges.execute start missed.1 processor.state _ (Nat.le_max_left fuel enough)
  have same := (executed _ (Nat.le_max_right fuel enough)).symm.trans decided
  simp only [Option.some.injEq, Prod.mk.injEq, Except.ok.injEq] at same
  rw [same.1, missed.2] at accepted
  cases accepted

theorem Judges.finds (judges : processor.Judges subject fuel verdict after)
    {scans : List Scan} {found : List MatchResult}
    (sweeps : processor.Sweeps subject verdict (subject.origin processor.program.entry) scans
      found) :
    processor.Finds subject fuel scans found where
  accepted one member := by
    obtain ⟨accepted, covered, same, scanned⟩ := sweeps.found_at judges one member
    have executed := judges.execute _ covered processor.state
    rw [same] at executed
    exact ⟨accepted, scanned, _, executed⟩
  ordered := sweeps.pairwise judges
  between before one later split := by
    obtain ⟨resume, resumes, walks, missed⟩ := sweeps.missed_between judges split
    exact ⟨resume, resumes, walks, fun other onward before =>
      judges.not_accepts (missed other onward before)⟩
  behind unbroken resume resumes other walks :=
    judges.not_accepts (sweeps.missed_behind unbroken resumes walks)

theorem Judges.searchAll (judges : processor.Judges subject fuel verdict after) :
    ∃ scans found enough, processor.Sweeps subject verdict
        (subject.origin processor.program.entry) scans found ∧
      fuel ≤ enough ∧
        ∀ more, enough ≤ more → processor.searchAll more subject = some scans := by
  obtain ⟨scans, found, sweeps, ran⟩ := judges.scansFrom
    (subject.covers_origin processor.program.entry) processor.state []
  refine ⟨scans, found, max fuel (subject.room (subject.origin processor.program.entry)
    processor.program.entry + 1), sweeps, Nat.le_max_left _ _, fun more sufficient => ?_⟩
  have rounds : subject.room (subject.origin processor.program.entry)
      processor.program.entry < more :=
    Nat.le_trans (Nat.le_max_right fuel _) sufficient
  have searched := ran more more (Nat.le_trans (Nat.le_max_left _ _) sufficient) rounds
  rw [List.append_nil] at searched
  exact (congrArg (Option.map List.reverse) searched).trans
    (congrArg some scans.reverse_reverse)

omit [CharacterData] in
theorem prepare_eq {program : Program} {options : Options} {text : SegmentedText}
    (valid : program.Valid)
    (limits : options.subject text program.granularity = .ok subject) :
    prepare program options text = .ok ({ program, options }, subject) := by
  have validated := Program.validate_eq_ok_iff.mpr valid
  simp only [prepare, Processor.new, validated, limits]
  rfl

/-- A search with a compiled program for every match between two limits ends with
finitely many matches, which are in order and apart from each other, and has left no
start out that it could have tried. -/
theorem searchAll_finds {fragment : Fragment} {entry : Direction} {granularity : Granularity}
    {program : Program} {options : Options} {text : SegmentedText}
    (compiled : fragment.compile entry granularity = .ok program)
    (limits : options.subject text granularity = .ok subject) :
    ∃ processor fuel scans found,
      Processor.prepare program options text = .ok (processor, subject) ∧
      processor.program.entry = entry ∧
      (∀ more, fuel ≤ more → processor.searchAll more subject = some scans) ∧
      Scan.matches scans = .ok found ∧ processor.Finds subject fuel scans found := by
  have compiles := Fragment.compiles compiled
  have granularities := compiles.granularity
  subst granularities
  have entries := compiles.entry
  subst entries
  let processor : Processor := { program, options }
  have same := Subject.granularity_of_within limits
  obtain ⟨fuel, verdict, after, judges⟩ : ∃ fuel verdict after,
      processor.Judges subject fuel verdict after := exists_judges compiles rfl same
  obtain ⟨scans, found, enough, sweeps, sufficient, ran⟩ := judges.searchAll
  exact ⟨processor, enough, scans, found, prepare_eq compiles.valid limits, rfl, ran,
    sweeps.matches_eq, (judges.mono sufficient).finds sweeps⟩

def unfollowedRun : Fragment :=
  .sequence [
    .repetition .greedy 0 Fragment.unbounded (.literal #[0x61] .none),
    .lookaround .forward true (.literal #[0x62] .none)]

def innerOptions : Options where
  budget := 20
  lower := 1
  upper := some 4

def innerSubject : Subject where
  text := .byUnits #[0x61, 0x61, 0x61, 0x62, 0x61]
  lower := 1
  upper := 4
  granularity := .codePoint
  lower_le_upper := by decide
  upper_le_size := by decide

end

open scoped Repertoire in
theorem unfollowedRun_finds :
    ∃ program processor fuel scans found,
      unfollowedRun.compile .reverse .codePoint = .ok program ∧
      prepare program innerOptions innerSubject.text = .ok (processor, innerSubject) ∧
      processor.searchAll fuel innerSubject = some scans ∧
      Scan.matches scans = .ok found ∧
      found.map (·.range) = [⟨4, 4⟩, ⟨1, 2⟩, ⟨1, 1⟩] ∧
      processor.Finds innerSubject fuel scans found := by
  obtain ⟨program, compiled, listed⟩ :
      ∃ program, unfollowedRun.compile .reverse .codePoint = .ok program ∧
        (({ program, options := innerOptions } : Processor).searchAll 100 innerSubject).map
            (fun scans => (Scan.matches scans).map (List.map (·.range))) =
          some (.ok [⟨4, 4⟩, ⟨1, 2⟩, ⟨1, 1⟩]) :=
    ⟨(unfollowedRun.compile .reverse .codePoint).toOption.getD {}, by cbv, by cbv⟩
  have limits : innerOptions.subject innerSubject.text .codePoint = .ok innerSubject :=
    rfl
  obtain ⟨processor, fuel, scans, found, prepared, -, searched, matched, finds⟩ :=
    searchAll_finds compiled limits
  have compiles := Fragment.compiles compiled
  have set : innerOptions.subject innerSubject.text program.granularity = .ok innerSubject :=
    compiles.granularity ▸ limits
  cases prepared.symm.trans (prepare_eq compiles.valid set)
  obtain ⟨others, ran, ranges⟩ := Option.map_eq_some_iff.mp listed
  cases (searched _ (Nat.le_max_left fuel 100)).symm.trans
    (searchAll_mono ran (Nat.le_max_right fuel 100))
  rw [matched] at ranges
  exact ⟨program, _, fuel, scans, found, compiled, prepared, searched fuel (Nat.le_refl _),
    matched, Except.ok.inj ranges, finds⟩

end Processor

end RegexMachine
