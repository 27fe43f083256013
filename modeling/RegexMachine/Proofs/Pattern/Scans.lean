import RegexMachine.Machine.Search
import RegexMachine.Proofs.Pattern.Verdicts

/-! # Scanning for a match

A scan walks over the units ahead of it. It passes over the starts at which an attempt
finds no match and is decided at the first other one, or at the limit. -/

namespace RegexMachine

/-! ## Walking over units -/

namespace Direction

def Precedes : Direction → Nat → Nat → Prop
  | .forward, position, other => position < other
  | .reverse, position, other => other < position

theorem Precedes.irrefl (direction : Direction) (position : Nat) :
    ¬direction.Precedes position position := by
  cases direction <;> exact Nat.lt_irrefl _

theorem Precedes.trans {direction : Direction} {position middle other : Nat}
    (first : direction.Precedes position middle) (second : direction.Precedes middle other) :
    direction.Precedes position other := by
  cases direction
  · exact Nat.lt_trans first second
  · exact Nat.lt_trans second first

theorem Precedes.asymm {direction : Direction} {position other : Nat}
    (before : direction.Precedes position other) : ¬direction.Precedes other position := by
  cases direction <;> exact Nat.lt_asymm before

theorem Precedes.trans_not {direction : Direction} {position middle other : Nat}
    (before : direction.Precedes position middle) (onward : ¬direction.Precedes other middle) :
    direction.Precedes position other := by
  cases direction <;> simp only [Precedes] at before onward ⊢ <;> omega

theorem Precedes.of_not {direction : Direction} {position middle other : Nat}
    (before : direction.Precedes middle other) (onward : ¬direction.Precedes middle position) :
    direction.Precedes position other := by
  cases direction <;> simp only [Precedes] at before onward ⊢ <;> omega

end Direction

namespace Subject

variable {subject : Subject} {direction : Direction} {position next other : Nat}

def StepsTo (subject : Subject) (direction : Direction) (position next : Nat) : Prop :=
  (subject.unitAhead position direction).map (·.landing direction) = some next

def Walks (subject : Subject) (direction : Direction) : Nat → Nat → Prop :=
  Relation.ReflTransGen (subject.StepsTo direction)

theorem Onward.precedes (onward : subject.Onward direction position next)
    (moved : next ≠ position) : direction.Precedes position next := by
  cases direction <;> simp only [Onward, Direction.Precedes] at onward ⊢ <;> omega

theorem precedes_of_room
    (shorter : subject.room next direction < subject.room position direction) :
    direction.Precedes position next := by
  cases direction <;> simp only [room, Direction.Precedes] at shorter ⊢ <;> omega

theorem room_of_precedes (covered : subject.covers next = true)
    (before : direction.Precedes position next) :
    subject.room next direction < subject.room position direction := by
  rw [covers_iff] at covered
  cases direction <;> simp only [room, Direction.Precedes] at before ⊢ <;> omega

theorem covers_origin (subject : Subject) (direction : Direction) :
    subject.covers (subject.origin direction) = true := by
  have ordered := subject.lower_le_upper
  rw [covers_iff]
  cases direction <;> simp only [origin] <;> omega

theorem granularity_of_within {text : SegmentedText} {lower upper : Nat}
    {granularity : Granularity}
    (limits : Subject.within text lower upper granularity = .ok subject) :
    subject.granularity = granularity := by
  unfold Subject.within at limits
  split at limits
  · cases limits
    rfl
  · cases limits

namespace StepsTo

theorem precedes (step : subject.StepsTo direction position next) :
    direction.Precedes position next := by
  obtain ⟨unit, found, rfl⟩ := Option.map_eq_some_iff.mp step
  exact precedes_of_room (unitAhead_room found)

theorem covers (step : subject.StepsTo direction position next)
    (covered : subject.covers position = true) : subject.covers next = true := by
  obtain ⟨unit, found, rfl⟩ := Option.map_eq_some_iff.mp step
  exact (unitAhead_onward found).covers covered

theorem unique (step : subject.StepsTo direction position next)
    (again : subject.StepsTo direction position other) : next = other :=
  Option.some.inj (step.symm.trans again)

end StepsTo

namespace Walks

theorem eq_or_precedes (walks : subject.Walks direction position other) :
    position = other ∨ direction.Precedes position other := by
  induction walks with
  | refl => exact .inl rfl
  | tail _ step induction =>
      rcases induction with rfl | before
      · exact .inr step.precedes
      · exact .inr (before.trans step.precedes)

theorem not_precedes (walks : subject.Walks direction position other) :
    ¬direction.Precedes other position := by
  rcases walks.eq_or_precedes with rfl | before
  · exact Direction.Precedes.irrefl direction _
  · exact before.asymm

theorem total (walks : subject.Walks direction position next)
    (again : subject.Walks direction position other) :
    subject.Walks direction next other ∨ subject.Walks direction other next :=
  Relation.ReflTransGen.total_of_right_unique (fun _ _ _ => StepsTo.unique) walks again

end Walks

end Subject

/-! ## One scan -/

namespace Processor

variable {processor : Processor} {subject : Subject} {fuel : Nat}
  {verdict : Nat → MatchResult} {after : State → Nat → State}

def Misses (subject : Subject) (verdict : Nat → MatchResult) (position : Nat) : Prop :=
  subject.covers position = true ∧ (verdict position).status = .noMatch

def PassesOver (processor : Processor) (subject : Subject) (verdict : Nat → MatchResult)
    (position next : Nat) : Prop :=
  Misses subject verdict position ∧ subject.StepsTo processor.program.entry position next

/-- A scan from the position passes over all starts up to the one that decides it. -/
structure ScansTo (processor : Processor) (subject : Subject) (verdict : Nat → MatchResult)
    (position start : Nat) : Prop where
  covered : subject.covers start = true
  path : Relation.ReflTransGen (processor.PassesOver subject verdict) position start
  ends : (verdict start).status = .noMatch →
    subject.unitAhead start processor.program.entry = none

namespace ScansTo

variable {position start other : Nat}

theorem walks (scans : processor.ScansTo subject verdict position start) :
    subject.Walks processor.program.entry position start :=
  scans.path.lift id fun _ _ => And.right

theorem missed (scans : processor.ScansTo subject verdict position start)
    (walks : subject.Walks processor.program.entry position other)
    (before : processor.program.entry.Precedes other start) :
    Misses subject verdict other := by
  obtain ⟨-, path, -⟩ := scans
  induction path using Relation.ReflTransGen.head_induction_on with
  | refl => exact absurd before walks.not_precedes
  | head step path induction =>
      cases walks using Relation.ReflTransGen.head_induction_on with
      | refl => exact step.1
      | head first rest =>
          cases first.unique step.2
          exact induction rest

/-- If there is no match even where the scan ends, there is none anywhere on its way,
and its way leads no further. -/
theorem missed_all (scans : processor.ScansTo subject verdict position start)
    (missed : (verdict start).status = .noMatch)
    (walks : subject.Walks processor.program.entry position other) :
    Misses subject verdict other := by
  rcases scans.walks.total walks with beyond | before
  · cases beyond using Relation.ReflTransGen.head_induction_on with
    | refl => exact ⟨scans.covered, missed⟩
    | head step _ =>
        obtain ⟨unit, found, -⟩ := Option.map_eq_some_iff.mp step
        rw [scans.ends missed] at found
        cases found
  · rcases before.eq_or_precedes with rfl | before
    · exact ⟨scans.covered, missed⟩
    · exact scans.missed walks before

end ScansTo

variable [CharacterData]

theorem scanFrom_of_decided {direction : Direction} {position : Nat}
    {result : Except Fault MatchResult} {final : Processor}
    (executed : processor.execute fuel subject position direction = some (result, final))
    (decided : misses result = false) (starts : List Nat) :
    scanFrom fuel subject direction processor starts position =
      some ⟨position :: starts, result, final⟩ := by
  rw [scanFrom, executed]
  simp only [decided, Bool.false_eq_true, if_false]

theorem scanFrom_of_stuck {direction : Direction} {position : Nat}
    {result : Except Fault MatchResult} {final : Processor}
    (executed : processor.execute fuel subject position direction = some (result, final))
    (missed : misses result = true) (stuck : subject.unitAhead position direction = none)
    (starts : List Nat) :
    scanFrom fuel subject direction processor starts position =
      some ⟨position :: starts, result, final⟩ := by
  rw [scanFrom, executed]
  simp only [missed, if_true]
  split
  · next found =>
      rw [stuck] at found
      cases found
  · rfl

theorem scanFrom_of_missed {direction : Direction} {position : Nat}
    {result : Except Fault MatchResult} {final : Processor} {unit : TextUnit}
    (executed : processor.execute fuel subject position direction = some (result, final))
    (missed : misses result = true) (ahead : subject.unitAhead position direction = some unit)
    (starts : List Nat) :
    scanFrom fuel subject direction processor starts position =
      scanFrom fuel subject direction final (position :: starts) (unit.landing direction) := by
  rw [scanFrom, executed]
  simp only [missed, if_true]
  split
  · next found =>
      rw [ahead] at found
      cases found
      rfl
  · next none =>
      rw [ahead] at none
      cases none

theorem scanFrom_mono {more : Nat} {direction : Direction} {starts : List Nat}
    {position : Nat} {scan : Scan}
    (scanned : scanFrom fuel subject direction processor starts position = some scan)
    (enough : fuel ≤ more) :
    scanFrom more subject direction processor starts position = some scan := by
  induction room : subject.room position direction using Nat.strongRecOn
    generalizing processor starts position with
  | ind size induction =>
      cases executed : processor.execute fuel subject position direction with
      | none =>
          rw [scanFrom, executed] at scanned
          cases scanned
      | some outcome =>
          obtain ⟨result, final⟩ := outcome
          have again := execute_mono executed enough
          cases missed : misses result with
          | false =>
              rw [scanFrom_of_decided again missed]
              rwa [scanFrom_of_decided executed missed] at scanned
          | true =>
              cases ahead : subject.unitAhead position direction with
              | none =>
                  rw [scanFrom_of_stuck again missed ahead]
                  rwa [scanFrom_of_stuck executed missed ahead] at scanned
              | some unit =>
                  rw [scanFrom_of_missed again missed ahead]
                  rw [scanFrom_of_missed executed missed ahead] at scanned
                  exact induction _ (room ▸ Subject.unitAhead_room ahead) scanned rfl

omit [CharacterData] in
theorem misses_ok (result : MatchResult) :
    misses (.ok result) = true ↔ result.status = .noMatch :=
  beq_iff_eq

/-- Every start that a scan passes over leaves less room ahead, so it comes to one
that decides it. -/
theorem Judges.scanFrom (judges : processor.Judges subject fuel verdict after)
    {position : Nat} (covered : subject.covers position = true) (left : State)
    (starts : List Nat) :
    ∃ start before final, processor.ScansTo subject verdict position start ∧
      ∀ more, fuel ≤ more →
        Processor.scanFrom more subject processor.program.entry
            { processor with state := left } starts position =
          some ⟨start :: before, .ok (verdict start), { processor with state := final }⟩ := by
  induction room : subject.room position processor.program.entry using Nat.strongRecOn
    generalizing position left starts with
  | ind size induction =>
      have executed := judges.execute position covered left
      by_cases missed : (verdict position).status = .noMatch
      · have misses := (misses_ok _).mpr missed
        cases ahead : subject.unitAhead position processor.program.entry with
        | none =>
            exact ⟨position, starts, after left position, ⟨covered, .refl, fun _ => ahead⟩,
              fun more enough => scanFrom_of_stuck (executed more enough) misses ahead starts⟩
        | some unit =>
            have step : subject.StepsTo processor.program.entry position
                (unit.landing processor.program.entry) :=
              Option.map_eq_some_iff.mpr ⟨unit, ahead, rfl⟩
            obtain ⟨start, before, final, scans, found⟩ := induction _
              (room ▸ Subject.unitAhead_room ahead) (step.covers covered) (after left position)
              (position :: starts) rfl
            exact ⟨start, before, final, ⟨scans.covered, .head ⟨⟨covered, missed⟩, step⟩ scans.path,
              scans.ends⟩, fun more enough =>
                (scanFrom_of_missed (executed more enough) misses ahead starts).trans
                  (found more enough)⟩
      · have decided : misses (.ok (verdict position)) = false :=
          Bool.eq_false_iff.mpr fun misses => missed ((misses_ok _).mp misses)
        exact ⟨position, starts, after left position,
          ⟨covered, .refl, fun found => absurd found missed⟩,
          fun more enough => scanFrom_of_decided (executed more enough) decided starts⟩

end Processor

end RegexMachine
