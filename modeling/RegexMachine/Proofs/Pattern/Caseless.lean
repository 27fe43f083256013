import Mathlib
import RegexMachine.Proofs.Pattern.Duality
import RegexMachine.Proofs.Pattern.Returning
import RegexMachine.Proofs.Pattern.Soundness
import RegexMachine.Proofs.Rune.Folding
import RegexMachine.Rune.Repertoire

/-! # Sets and literals without case

A set is gathered with the foldings of its runes and asked for the folding of a unit,
and a literal is folded and compared by foldings. For any folding that keeps scalar values
apart from surrogates both come to the same test, so a caseless set of runes is an
alternation of caseless literals: a unit passes just if its folding is that of some scalar
value of the set. -/

namespace RegexMachine

/-! ## Fragments of one instruction -/

namespace Fragment

variable {fragment : Fragment} {entry : Direction} {subject : Subject} {start : Nat}

section

variable [CharacterData]

theorem emit_literal {text : Octets} {flags : MatchFlags} {encoder : Encoder}
    (unfinished : encoder.finished = false)
    (short : encoder.program.data.size + (wanted text (flags.has .caseless)).size < 0x10000)
    (direction : Direction) :
    ∃ after, (literal text flags).emit direction encoder = .ok () after ∧
      after.finished = false ∧ after.program.data.size =
        encoder.program.data.size + (wanted text (flags.has .caseless)).size := by
  have offset : word32? encoder.program.data.size = some _ := if_pos (by omega)
  have length : word16? (wanted text (flags.has .caseless)).size = some _ :=
    if_pos (by omega)
  simp only [emit, Encoder.matchString, Encoder.discard_eq_ok, Encoder.bind_eq_ok]
  refine ⟨_, ⟨_, (_, _), _, Encoder.addLiteral_eq_ok.mpr ⟨offset, length, rfl⟩,
    Encoder.append_eq_ok.mpr ⟨unfinished, rfl, rfl⟩⟩, unfinished, ?_⟩
  exact Array.size_append

theorem compile_literal {text : Octets} {flags : MatchFlags}
    (short : (wanted text (flags.has .caseless)).size < 0x10000) (entry : Direction)
    (granularity : Granularity) :
    ∃ program, (literal text flags).compile entry granularity = .ok program := by
  have empty : (Encoder.new entry granularity).program.data.size = 0 := rfl
  have fits : (Encoder.new entry granularity).program.data.size +
      (wanted text (flags.has .caseless)).size < 0x10000 := by omega
  obtain ⟨middle, emitted, -⟩ := emit_literal rfl fits entry
  exact ⟨_, compile_of_emit emitted⟩

theorem compile_ofSet {ranges : List Interval} {flags : MatchFlags} {set : RuneSet}
    (gathered : Encoder.gatherRanges ranges (flags.has .caseless) = .ok set)
    (negated : Bool) (entry : Direction) (granularity : Granularity) :
    ∃ program, (ofSet ranges flags negated).compile entry granularity = .ok program := by
  have index : word16? 0 = some 0 := rfl
  have emitted : ∃ middle,
      (ofSet ranges flags negated).emit entry (.new entry granularity) = .ok () middle := by
    simp only [emit, Encoder.matchSet, gathered, Encoder.discard_eq_ok, Encoder.bind_eq_ok]
    exact ⟨_, _, _, _, Encoder.addRuneSet_eq_ok.mpr ⟨index, rfl⟩,
      Encoder.append_eq_ok.mpr ⟨rfl, rfl, rfl⟩⟩
  obtain ⟨middle, emitted⟩ := emitted
  exact ⟨_, compile_of_emit emitted⟩

/-- Some scalar value in the ranges folds as the rune does. -/
def FoldsInto (ranges : List Interval) (rune : Rune) : Prop :=
  ∃ range ∈ ranges, ∃ member : Rune, range.contains member = true ∧ member.IsScalar ∧
    rune.caseFold = member.caseFold

def caselessRune (rune : Rune) : Fragment := literal (Utf8.encode rune).toArray .caseless

theorem takes_iff (folding : Rune.FoldsScalars Rune.caseFold) {rune : Rune}
    (scalar : rune.IsScalar) (ranges : List Interval) :
    takes ranges true rune = true ↔ FoldsInto ranges rune := by
  simp only [takes, if_true, List.any_eq_true, Interval.brings_iff, true_and]
  refine exists_congr fun range => and_congr_right fun _ => ⟨?_, ?_⟩
  · rintro (inside | ⟨member, inside, coded, folds⟩)
    · exact ⟨rune.caseFold, inside, folding.scalar rune scalar,
        (folding.idempotent rune).symm⟩
    · refine ⟨member, inside, by_contra fun stray => ?_, folds.symm⟩
      -- What a scalar value folds to is one, and no surrogate folds to it.
      have folded := folding.scalar rune scalar
      rw [← folds] at folded
      exact folding.surrogate member coded stray folded
  · rintro ⟨member, inside, scalar, folds⟩
    exact .inr ⟨member, inside, scalar.le_last, folds.symm⟩

section

variable (codePoints : subject.granularity = .codePoint) (covered : subject.covers start = true)
include codePoints covered

theorem returns_outcome {program : Program}
    (compiled : fragment.compile entry .codePoint = .ok program) :
    ∃ result, fragment.Returns entry subject start result ∧
      match fragment.outcomes subject entry (.opening start) with
      | [] => result.status = .noMatch
      | first :: _ => result.Reports first start program.captureCount := by
  rw [← codePoints] at compiled
  have admits : subject.Admits start := ⟨covered, fun clusters => by simp [codePoints] at clusters⟩
  obtain ⟨result, returns, answers⟩ := returns_of_compile compiled start
  exact ⟨result, returns, answers.admitted admits⟩

/-- A fragment whose only outcome is to pass a unit that a test lets through accepts just
if there is one, and matches that unit. -/
theorem returns_passUnit (compiles : ∃ program, fragment.compile entry .codePoint = .ok program)
    {test : Rune → Bool}
    (leads : fragment.outcomes subject entry (.opening start) =
      (Outcome.opening start).arrive subject (subject.passUnit start entry test) false) :
    ∃ result, fragment.Returns entry subject start result ∧
      (result.status = .accepted ↔
        ∃ unit, subject.unitAhead start entry = some unit ∧ test unit.rune = true) ∧
      ∀ unit, subject.unitAhead start entry = some unit → result.status = .accepted →
        result.range = ⟨min start (unit.landing entry), max start (unit.landing entry)⟩ := by
  obtain ⟨program, compiled⟩ := compiles
  obtain ⟨result, returns, agrees⟩ := returns_outcome codePoints covered compiled
  refine ⟨result, returns, ?_⟩
  rw [leads, Subject.passUnit] at agrees
  have misses (empty : result.status = .noMatch) : ¬result.status = .accepted := by
    rw [empty]
    exact MatchStatus.noConfusion
  cases ahead : subject.unitAhead start entry with
  | none =>
      rw [ahead] at agrees
      have missed := misses agrees
      exact ⟨by simp [missed], fun _ _ accepted => absurd accepted missed⟩
  | some unit =>
      rw [ahead, Option.filter_some] at agrees
      cases passes : test unit.rune with
      | false =>
          rw [passes] at agrees
          have missed := misses agrees
          exact ⟨by simp [passes, missed], fun _ _ accepted => absurd accepted missed⟩
      | true =>
          have lands : (Outcome.opening start).arrive subject (some (unit.landing entry))
              false = [{ Outcome.opening start with position := unit.landing entry }] := by
            simp [Outcome.arrive, codePoints]
          rw [passes, if_pos rfl, Option.map_some, lands] at agrees
          refine ⟨iff_of_true agrees.accepted ⟨unit, rfl, passes⟩, ?_⟩
          intro other same _
          obtain rfl := Option.some.inj same
          rw [MatchResult.range, agrees.whole]
          rfl

variable (folding : Rune.FoldsScalars Rune.caseFold)
include folding

theorem returns_caselessRune {rune : Rune} (scalar : rune.IsScalar) (entry : Direction) :
    ∃ result, (caselessRune rune).Returns entry subject start result ∧
      (result.status = .accepted ↔ ∃ unit, subject.unitAhead start entry = some unit ∧
        unit.rune.caseFold = rune.caseFold) ∧
      ∀ unit, subject.unitAhead start entry = some unit → result.status = .accepted →
        result.range = ⟨min start (unit.landing entry), max start (unit.landing entry)⟩ := by
  have caseless : MatchFlags.has .caseless .caseless = true := rfl
  have folded : wanted (Utf8.encode rune).toArray true = (Utf8.encode rune.caseFold).toArray :=
    Octets.foldCase_encode scalar Rune.caseFold
  have compiles : ∃ program, (caselessRune rune).compile entry .codePoint = .ok program := by
    refine compile_literal ?_ entry .codePoint
    have short := Octets.length_encode_le (folding.scalar rune scalar)
    rw [caseless, folded, List.size_toArray]
    omega
  have leads : (caselessRune rune).outcomes subject entry (.opening start) =
      (Outcome.opening start).arrive subject (subject.passUnit start entry
        fun other => other.caseFold = rune.caseFold) false := by
    have passes := Subject.passLiteral_encode codePoints covered
      (folding.scalar rune scalar) entry
    rw [folding.idempotent] at passes
    rw [caselessRune, outcomes, caseless, folded]
    exact congrArg ((Outcome.opening start).arrive subject · false) passes
  simpa using returns_passUnit codePoints covered compiles leads

theorem returns_ofSet {ranges : List Interval}
    (ordered : ∀ range ∈ ranges, range.first ≤ range.last) (negated : Bool)
    (entry : Direction) :
    ∃ result, (ofSet ranges .caseless negated).Returns entry subject start result ∧
      (result.status = .accepted ↔ ∃ unit, subject.unitAhead start entry = some unit ∧
        (FoldsInto ranges unit.rune ↔ negated = false)) ∧
      ∀ unit, subject.unitAhead start entry = some unit → result.status = .accepted →
        result.range = ⟨min start (unit.landing entry), max start (unit.landing entry)⟩ := by
  have caseless : MatchFlags.has .caseless .caseless = true := rfl
  obtain ⟨set, gathered⟩ := Encoder.gatherRanges_of_ordered ordered true
  have compiles : ∃ program,
      (ofSet ranges .caseless negated).compile entry .codePoint = .ok program :=
    compile_ofSet gathered negated entry .codePoint
  have leads : (ofSet ranges .caseless negated).outcomes subject entry (.opening start) =
      (Outcome.opening start).arrive subject (subject.passUnit start entry
        fun rune => takes ranges true rune != negated) false := by
    rw [outcomes, caseless]
    rfl
  obtain ⟨result, returns, accepts, range⟩ :=
    returns_passUnit codePoints covered compiles leads
  refine ⟨result, returns, accepts.trans (exists_congr fun unit => ?_), range⟩
  refine and_congr_right fun ahead => ?_
  rw [← takes_iff folding (Subject.isScalar_unitAhead ahead)]
  cases takes ranges true unit.rune <;> cases negated <;> simp

def Accepts (fragment : Fragment) (entry : Direction) (subject : Subject) (start : Nat) :
    Prop :=
  ∃ result, fragment.Returns entry subject start result ∧ result.status = .accepted

def AcceptsSome (ranges : List Interval) (entry : Direction) (subject : Subject)
    (start : Nat) : Prop :=
  ∃ range ∈ ranges, ∃ rune : Rune, range.contains rune = true ∧ rune.IsScalar ∧
    (caselessRune rune).Accepts entry subject start

theorem acceptsSome_iff (ranges : List Interval) (entry : Direction) :
    AcceptsSome ranges entry subject start ↔
      ∃ unit, subject.unitAhead start entry = some unit ∧ FoldsInto ranges unit.rune := by
  have accepts {rune : Rune} (scalar : rune.IsScalar) :
      (caselessRune rune).Accepts entry subject start ↔
        ∃ unit, subject.unitAhead start entry = some unit ∧
          unit.rune.caseFold = rune.caseFold := by
    obtain ⟨single, returns, accepts, -⟩ :=
      returns_caselessRune codePoints covered folding scalar entry
    rw [← accepts]
    constructor
    · rintro ⟨other, again, accepted⟩
      rwa [returns.unique again]
    · exact fun accepted => ⟨single, returns, accepted⟩
  constructor
  · rintro ⟨range, member, rune, inside, scalar, accepted⟩
    obtain ⟨unit, ahead, folds⟩ := (accepts scalar).mp accepted
    exact ⟨unit, ahead, range, member, rune, inside, scalar, folds⟩
  · rintro ⟨unit, ahead, range, member, rune, inside, scalar, folds⟩
    exact ⟨range, member, rune, inside, scalar, (accepts scalar).mpr ⟨unit, ahead, folds⟩⟩

/-- A caseless set of ordered ranges accepts just where the caseless literal of some scalar
value in them does, and matches what that literal matches. The negated set accepts just
where there is a unit and no such scalar value. -/
theorem caseless_set_iff_literal {ranges : List Interval}
    (ordered : ∀ range ∈ ranges, range.first ≤ range.last) (entry : Direction) :
    (∃ result, (ofSet ranges .caseless false).Returns entry subject start result ∧
      (result.status = .accepted ↔ AcceptsSome ranges entry subject start) ∧
      ∀ range ∈ ranges, ∀ rune : Rune, range.contains rune = true → rune.IsScalar →
        ∃ single, (caselessRune rune).Returns entry subject start single ∧
          (single.status = .accepted → result.range = single.range)) ∧
    ∃ result, (ofSet ranges .caseless true).Returns entry subject start result ∧
      (result.status = .accepted ↔
        (∃ unit, subject.unitAhead start entry = some unit) ∧
          ¬AcceptsSome ranges entry subject start) := by
  have spells := acceptsSome_iff codePoints covered folding ranges entry
  constructor
  · obtain ⟨result, returns, accepts, range⟩ :=
      returns_ofSet codePoints covered folding ordered false entry
    simp only [iff_true] at accepts
    refine ⟨result, returns, accepts.trans spells.symm, ?_⟩
    intro other member rune inside scalar
    obtain ⟨single, returned, passes, alike⟩ :=
      returns_caselessRune codePoints covered folding scalar entry
    refine ⟨single, returned, fun accepted => ?_⟩
    obtain ⟨unit, ahead, folds⟩ := passes.mp accepted
    have found := accepts.mpr ⟨unit, ahead, other, member, rune, inside, scalar, folds⟩
    rw [range unit ahead found, alike unit ahead accepted]
  · obtain ⟨result, returns, accepts, -⟩ :=
      returns_ofSet codePoints covered folding ordered true entry
    refine ⟨result, returns, accepts.trans ?_⟩
    rw [spells]
    cases subject.unitAhead start entry with
    | none => simp
    | some unit => simp

end

end

open scoped Repertoire in
theorem kelvinSign_iff_literal :
    Rune.FoldsScalars Rune.caseFold ∧ ∃ result other,
      (ofSet [⟨0x6B, 0x6B⟩] .caseless false).Returns .forward
          (.whole (.byUnits #[0xE2, 0x84, 0xAA]) .codePoint) 0 result ∧
        result.status = .accepted ∧
      (ofSet [⟨0x6B, 0x6B⟩] .caseless true).Returns .forward
          (.whole (.byUnits #[0xE2, 0x84, 0xAA]) .codePoint) 0 other ∧
        other.status ≠ .accepted := by
  have folding : Rune.FoldsScalars Rune.caseFold := Repertoire.foldsScalars_caseFold
  have codePoints : (Subject.whole (.byUnits #[0xE2, 0x84, 0xAA]) .codePoint).granularity =
      .codePoint := rfl
  have covered : (Subject.whole (.byUnits #[0xE2, 0x84, 0xAA]) .codePoint).covers 0 = true := by
    cbv
  have ahead : (Subject.whole (.byUnits #[0xE2, 0x84, 0xAA]) .codePoint).unitAhead 0 .forward =
      some ⟨0x212A, 0, 3⟩ := by cbv
  have spelled : AcceptsSome [⟨0x6B, 0x6B⟩] .forward
      (.whole (.byUnits #[0xE2, 0x84, 0xAA]) .codePoint) 0 :=
    (acceptsSome_iff codePoints covered folding _ _).mpr
      ⟨_, ahead, ⟨0x6B, 0x6B⟩, by simp, 0x6B, by decide, by decide, by cbv⟩
  have ordered : ∀ range ∈ [(⟨0x6B, 0x6B⟩ : Interval)], range.first ≤ range.last := by simp
  obtain ⟨⟨result, returns, accepts, -⟩, other, returned, refuses⟩ :=
    caseless_set_iff_literal codePoints covered folding ordered .forward
  exact ⟨folding, result, other, returns, accepts.mpr spelled, returned,
    fun accepted => (refuses.mp accepted).2 spelled⟩

end Fragment

end RegexMachine
