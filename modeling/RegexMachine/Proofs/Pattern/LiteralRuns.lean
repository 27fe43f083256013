import RegexMachine.Proofs.Pattern.Caseless
import RegexMachine.Proofs.Pattern.Unrolling
import RegexMachine.Proofs.Text.Joining
import RegexMachine.Rune.Repertoire

/-! # Runs of literals

A literal that is joined from well-formed words is one instruction, and the sequence of
the words is one for each of them. Among code points both end where the last word has been
passed in the order of the direction, so they return alike. -/

namespace RegexMachine

namespace Fragment

variable {words : List Octets} {flags : MatchFlags} {caseless : Bool}

def wordByWord (words : List Octets) (flags : MatchFlags) : Fragment :=
  sequence (words.map (literal · flags))

/-! ## What is compared -/

section

variable [CharacterData]

theorem wanted_empty (caseless : Bool) : wanted #[] caseless = #[] := by
  cases caseless with
  | false => rfl
  | true =>
      have none : Octets.units #[] 0 (#[] : Octets).size = [] := by
        rw [Octets.units]
        exact if_neg (Nat.lt_irrefl 0)
      rw [wanted, if_pos rfl, Octets.foldCase_eq, none]
      rfl

theorem wanted_append {front : Octets} (formed : front.WellFormed) (back : Octets)
    (caseless : Bool) :
    wanted (front ++ back) caseless = wanted front caseless ++ wanted back caseless := by
  cases caseless with
  | false => rfl
  | true => exact Octets.foldCase_join Rune.caseFold (formed.isCut_join back)

theorem size_wanted_join (formed : ∀ word ∈ words, word.WellFormed) (caseless : Bool) :
    (wanted (Octets.join words) caseless).size =
      (words.map fun word => (wanted word caseless).size).sum := by
  induction words with
  | nil =>
      rw [Octets.join, wanted_empty]
      rfl
  | cons word words induction =>
      rw [List.forall_mem_cons] at formed
      rw [Octets.join, wanted_append formed.1, Array.size_append, induction formed.2,
        List.map_cons, List.sum_cons]

/-! ## Outcomes -/

section

variable {subject : Subject} (codePoints : subject.granularity = .codePoint)
include codePoints

omit [CharacterData] in
theorem arrive_of_codePoints (here : Outcome) (next : Option Nat) :
    here.arrive subject next false =
      (next.map fun position => { here with position }).toList := by
  cases next with
  | none => rfl
  | some position => simp [Outcome.arrive, codePoints]

theorem outcomes_literal (anywhere : flags.has .boundary = false) (text : Octets)
    (direction : Direction) (here : Outcome) :
    (literal text flags).outcomes subject direction here =
      ((subject.passLiteral here.position (wanted text (flags.has .caseless)).all direction
        (flags.has .caseless)).map fun position => { here with position }).toList := by
  rw [outcomes, anywhere]
  exact arrive_of_codePoints codePoints here _

omit codePoints in
theorem outcomes_wordByWord (words : List Octets) (flags : MatchFlags)
    (direction : Direction) :
    (wordByWord words flags).outcomes subject direction =
      Matcher.sequence direction
        (words.map fun word => (literal word flags).outcomes subject direction) := by
  rw [wordByWord, outcomes, outcomesEach_eq_map, List.map_map]
  rfl

theorem sequence_words_eq (anywhere : flags.has .boundary = false)
    (formed : ∀ word ∈ words, word.WellFormed) (direction : Direction) {here : Outcome}
    (covered : subject.covers here.position = true) :
    Matcher.sequence direction
        (words.map fun word => (literal word flags).outcomes subject direction) here =
      (literal (Octets.join words) flags).outcomes subject direction here := by
  have passes := outcomes_literal codePoints anywhere
  induction words generalizing here with
  | nil =>
      rw [passes, Octets.join, wanted_empty, Subject.passLiteral_empty covered]
      rfl
  | cons word words induction =>
      obtain ⟨front, back⟩ := List.forall_mem_cons.mp formed
      have both := subject.passLiteral_join (wellFormed_wanted front (flags.has .caseless))
        (wanted (Octets.join words) (flags.has .caseless)) (flags.has .caseless) here.position
      rw [passes, Octets.join, wanted_append front]
      cases direction with
      | forward =>
          rw [both.1]
          change ((literal word flags).outcomes subject .forward here).flatMap
            (Matcher.sequence .forward _) = _
          rw [passes]
          cases passed : subject.passLiteral here.position
              (wanted word (flags.has .caseless)).all .forward (flags.has .caseless) with
          | none => rfl
          | some middle =>
              have inside := (subject.keeps_passLiteral _ _ _ _ middle passed).2.1
              have rest : Matcher.sequence .forward _ { here with position := middle } = _ :=
                induction back inside
              rw [passes] at rest
              simpa using rest
      | reverse =>
          rw [both.2]
          change (Matcher.sequence .reverse _ here).flatMap
            ((literal word flags).outcomes subject .reverse) = _
          rw [induction back covered, passes]
          cases subject.passLiteral here.position
              (wanted (Octets.join words) (flags.has .caseless)).all .reverse
                (flags.has .caseless) with
          | none => rfl
          | some middle => simp [passes]

end

/-! ## Compilation -/

theorem emit_words {encoder : Encoder} (unfinished : encoder.finished = false)
    (short : encoder.program.data.size +
      (words.map fun word => (wanted word (flags.has .caseless)).size).sum < 0x10000)
    (direction : Direction) :
    ∃ after, (words.map fun word => (literal word flags).emit).forM (· direction) encoder =
      .ok () after := by
  induction words generalizing encoder with
  | nil => exact ⟨encoder, rfl⟩
  | cons word words induction =>
      rw [List.map_cons, List.sum_cons] at short
      have fits : encoder.program.data.size + (wanted word (flags.has .caseless)).size <
          0x10000 := by omega
      obtain ⟨middle, first, unfinished, size⟩ := emit_literal unfinished fits direction
      obtain ⟨after, rest⟩ := induction unfinished (by omega)
      exact ⟨after, Encoder.bind_eq_ok.mpr ⟨(), middle, first, rest⟩⟩

theorem compile_wordByWord
    (short : (words.map fun word => (wanted word (flags.has .caseless)).size).sum < 0x10000)
    (entry : Direction) (granularity : Granularity) :
    ∃ program, (wordByWord words flags).compile entry granularity = .ok program := by
  have empty : (Encoder.new entry granularity).program.data.size = 0 := rfl
  have emitted : ∃ after, (wordByWord words flags).emit entry (.new entry granularity) =
      .ok () after := by
    rw [wordByWord, emit, emitters_eq_map, List.map_map]
    cases entry with
    | forward => exact emit_words rfl (by omega) .forward
    | reverse =>
        rw [Encoder.sequence, ← List.map_reverse]
        refine emit_words rfl ?_ .reverse
        rw [List.map_reverse, List.sum_reverse]
        omega
  obtain ⟨after, emitted⟩ := emitted
  exact ⟨_, compile_of_emit emitted⟩

omit [CharacterData] in
theorem groupBound_wordByWord (words : List Octets) (flags : MatchFlags) :
    (wordByWord words flags).groupBound = 0 := by
  rw [wordByWord, groupBound]
  induction words with
  | nil => rfl
  | cons word words induction =>
      rw [List.map_cons, groupBoundEach, induction]
      rfl

/-- A literal that is joined from well-formed words returns what the sequence of these
returns, if it is no longer than a literal may be. Both do return. -/
theorem returnsLike_wordByWord {subject : Subject} (codePoints : subject.granularity = .codePoint)
    (formed : ∀ word ∈ words, word.WellFormed) (anywhere : flags.has .boundary = false)
    (short : (wanted (Octets.join words) (flags.has .caseless)).size < 0x10000)
    (entry : Direction) (start : Nat) :
    (literal (Octets.join words) flags).ReturnsLike (wordByWord words flags) entry subject
      start := by
  obtain ⟨program, compiled⟩ := compile_literal short entry subject.granularity
  rw [size_wanted_join formed] at short
  obtain ⟨otherProgram, otherCompiled⟩ := compile_wordByWord short entry subject.granularity
  apply returnsLike_of_outcomes_eq compiled otherCompiled
  · rw [captureCount_of_compile compiled, captureCount_of_compile otherCompiled,
      groupBound_wordByWord]
    rfl
  · intro admits
    rw [outcomes_wordByWord]
    exact (sequence_words_eq codePoints anywhere formed entry admits.covered).symm

def capitalWords : List Octets := [#[0xE2, 0x84, 0xAA], #[], #[0xC3, 0x89]]

omit [CharacterData] in
theorem wellFormed_capitalWords : ∀ word ∈ capitalWords, word.WellFormed := by
  have kelvin : Octets.WellFormed #[0xE2, 0x84, 0xAA] := ⟨[0x212A], by decide +kernel⟩
  have accented : Octets.WellFormed #[0xC3, 0x89] := ⟨[0xC9], by decide +kernel⟩
  simp [capitalWords, kelvin, accented, Octets.WellFormed.empty]

end

open scoped Repertoire in
theorem returnsLike_capitalWords :
    (literal #[0xE2, 0x84, 0xAA, 0xC3, 0x89] .caseless).ReturnsLike
      (wordByWord capitalWords .caseless) .reverse
      (.whole (.byUnits #[0x6B, 0xC3, 0xA9, 0xFF]) .codePoint) 3 := by
  have joined : Octets.join capitalWords = #[0xE2, 0x84, 0xAA, 0xC3, 0x89] := by decide
  have short : (wanted (Octets.join capitalWords)
      (MatchFlags.has .caseless .caseless)).size < 0x10000 := by
    decide +kernel
  rw [← joined]
  exact returnsLike_wordByWord rfl wellFormed_capitalWords (by decide) short .reverse 3

end Fragment

end RegexMachine
