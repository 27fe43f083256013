import RegexMachine.Proofs.Text.Cuts
import RegexMachine.Proofs.Text.Limits
import RegexMachine.Proofs.Text.Slices

/-! # Reading back

Whatever is passed over from a cut of the subject ends at a cut, and passing
over the same in the opposite direction leads back. For a literal whose octets
are compared this takes well-formed octets; any other text may be ill formed. -/

namespace RegexMachine

/-! ## Well-formed octets -/

def Octets.WellFormed (text : Octets) : Prop :=
  ∃ runes : List Rune, text.toList = runes.flatMap Utf8.encode

namespace Utf8

theorem decode?_encode (rune : Rune) :
    ∃ decoded, decode? (encode rune) = some (decoded, (encode rune).length) := by
  have ofScalar : ∀ {rune : Rune}, rune.IsScalar →
      ∃ decoded, decode? (encode rune) = some (decoded, (encode rune).length) := by
    intro rune scalar
    have decoded := decode?_encode_append scalar []
    rw [List.append_nil] at decoded
    exact ⟨rune, decoded⟩
  by_cases scalar : rune.IsScalar
  · exact ofScalar scalar
  · rw [encode_of_not_isScalar scalar]
    exact ofScalar (by decide)

theorem isLead_head_encode (rune : Rune) :
    ∃ lead rest, encode rune = lead :: rest ∧ isLead lead = true := by
  rcases decode?_encode rune with ⟨decoded, found⟩
  rcases decode?_eq_some_iff.mp found with
    ⟨lead, rest, more, bits, shape, -, announced, -⟩
  exact ⟨lead, rest, shape, (announcement?_lead announced).1⟩

end Utf8

namespace Octets

variable {text : Octets} {first last position : Nat}

theorem WellFormed.foldCase (text : Octets) (fold : Rune → Rune) :
    (text.foldCase fold).WellFormed :=
  ⟨(text.units 0 text.size).map (fold ·.rune), by simp [Octets.foldCase, List.flatMap_map]⟩

theorem unitFrom_last_of_encode {rune : Rune}
    (holds : ∀ index < (Utf8.encode rune).length,
      text[position + index]? = (Utf8.encode rune)[index]?)
    (inside : position + (Utf8.encode rune).length ≤ last) :
    (text.unitFrom position last).last = position + (Utf8.encode rune).length := by
  rcases Utf8.decode?_encode rune with ⟨decoded, found⟩
  have four := Utf8.decode?_length_le_four found
  have begins : (text.window position last).take (Utf8.encode rune).length =
      Utf8.encode rune := by
    apply List.ext_getElem?
    intro index
    rw [List.getElem?_take, window_getElem?]
    split
    · next below => rw [if_pos (by omega), holds index below]
    · rw [List.getElem?_eq_none (by omega)]
  rw [← begins] at found
  rw [unitFrom_of_decode? (Utf8.decode?_of_take found), begins]

theorem IsCut.of_encode (runes : List Rune) (cut : text.IsCut first last position)
    (holds : ∀ index < (runes.flatMap Utf8.encode).length,
      text[position + index]? = (runes.flatMap Utf8.encode)[index]?)
    (inside : position + (runes.flatMap Utf8.encode).length ≤ last) :
    text.IsCut first last (position + (runes.flatMap Utf8.encode).length) := by
  induction runes generalizing position with
  | nil => exact cut
  | cons rune runes induction =>
      simp only [List.flatMap_cons, List.length_append] at holds inside ⊢
      have positive : 0 < (Utf8.encode rune).length := by
        rcases Utf8.isLead_head_encode rune with ⟨lead, rest, shape, -⟩
        rw [shape]
        exact Nat.succ_pos _
      have ends : (text.unitFrom position last).last =
          position + (Utf8.encode rune).length := by
        refine unitFrom_last_of_encode (fun index below => ?_) (by omega)
        rw [holds index (by omega), List.getElem?_append_left below]
      have next := cut.next (by omega)
      rw [ends] at next
      rw [← Nat.add_assoc]
      refine induction next (fun index below => ?_) (by omega)
      rw [Nat.add_assoc, holds _ (by omega), List.getElem?_append_right (by omega),
        Nat.add_sub_cancel_left]

/-- What is well formed begins with a lead octet. -/
theorem WellFormed.isLead (formed : text.WellFormed) (nonempty : 0 < text.size) :
    ∃ lead, text[0]? = some lead ∧ Utf8.isLead lead = true := by
  rcases formed with ⟨runes, shape⟩
  cases runes with
  | nil =>
      rw [← Array.length_toList, shape] at nonempty
      cases nonempty
  | cons rune runes =>
      rcases Utf8.isLead_head_encode rune with ⟨lead, rest, head, leads⟩
      refine ⟨lead, ?_, leads⟩
      rw [← Array.getElem?_toList, shape, List.flatMap_cons, head]
      rfl

variable {literal : Octets}

/-- A well-formed literal within the range lies between cuts if one of its
ends is a cut. -/
theorem WellFormed.isCut_end (formed : literal.WellFormed)
    (holds : text.Holds position literal) (inside : position + literal.size ≤ last)
    (cut : text.IsCut first last position) :
    text.IsCut first last (position + literal.size) := by
  rcases formed with ⟨runes, shape⟩
  have size : literal.size = (runes.flatMap Utf8.encode).length := by
    rw [← shape, Array.length_toList]
  rw [size] at inside ⊢
  refine cut.of_encode runes (fun index below => ?_) inside
  rw [holds index (by omega), ← Array.getElem?_toList, shape]

theorem WellFormed.isCut_start (formed : literal.WellFormed)
    (holds : text.Holds position literal) (behind : first ≤ position)
    (cut : text.IsCut first last (position + literal.size)) :
    text.IsCut first last position := by
  have := cut.le_last
  rcases Nat.eq_zero_or_pos literal.size with empty | nonempty
  · rwa [empty] at cut
  · rcases formed.isLead nonempty with ⟨lead, head, leads⟩
    rw [← holds 0 nonempty] at head
    exact isCut_of_isLead behind (by omega) head leads

/-! ## Well-formed ranges -/

theorem WellFormed.empty : WellFormed #[] := ⟨[], rfl⟩

theorem WellFormed.append {front back : Octets} (left : front.WellFormed)
    (right : back.WellFormed) : WellFormed (front ++ back) := by
  obtain ⟨runes, shape⟩ := left
  obtain ⟨others, same⟩ := right
  exact ⟨runes ++ others, by rw [Array.toList_append, shape, same, List.flatMap_append]⟩

theorem WellFormed.cut_unit (formed : WellFormed (text.extract position last))
    (inside : position < last) (fits : last ≤ text.size) :
    WellFormed (text.extract position (text.unitFrom position last).last) ∧
      WellFormed (text.extract (text.unitFrom position last).last last) := by
  obtain ⟨runes, shape⟩ := formed
  have size : (text.extract position last).size = last - position := by
    rw [Array.size_extract]
    omega
  have length := congrArg List.length shape
  rw [Array.length_toList, size] at length
  cases runes with
  | nil =>
      rw [List.flatMap_nil, List.length_nil] at length
      omega
  | cons rune runes =>
      rw [List.flatMap_cons] at shape length
      rw [List.length_append] at length
      have ends : (text.unitFrom position last).last =
          position + (Utf8.encode rune).length := by
        refine unitFrom_last_of_encode (fun index below => ?_) (by omega)
        have read := congrArg (·[index]?) shape
        rw [Array.getElem?_toList, Array.getElem?_extract, if_pos (by omega),
          List.getElem?_append_left below] at read
        exact read
      have joined : text.extract position (position + (Utf8.encode rune).length) ++
          text.extract (position + (Utf8.encode rune).length) last =
            text.extract position last := by
        rw [Array.extract_append_extract, Nat.min_eq_left (Nat.le_add_right _ _),
          Nat.max_eq_right (by omega)]
      have parts := congrArg Array.toList joined
      rw [Array.toList_append, shape] at parts
      obtain ⟨front, back⟩ := List.append_inj parts (by
        rw [Array.length_toList, Array.size_extract]
        omega)
      rw [ends]
      exact ⟨⟨[rune], by rw [front, List.flatMap_singleton]⟩, runes, back⟩

theorem WellFormed.cut (formed : WellFormed (text.extract first last))
    (fits : last ≤ text.size)
    (path : Relation.ReflTransGen (text.CutAfter last) first position) :
    WellFormed (text.extract first position) ∧ WellFormed (text.extract position last) := by
  induction path with
  | refl =>
      refine ⟨?_, formed⟩
      rw [Array.extract_empty_of_stop_le_start (Nat.le_refl first)]
      exact .empty
  | @tail middle position path step induction =>
      obtain ⟨inside, rfl⟩ := step
      obtain ⟨front, back⟩ := induction
      obtain ⟨unit, rest⟩ := back.cut_unit inside fits
      have ahead := text.lt_unitFrom_last inside
      have whole := front.append unit
      rw [Array.extract_append_extract, Nat.min_eq_left (le_of_cutsAfter path),
        Nat.max_eq_right (Nat.le_of_lt ahead)] at whole
      exact ⟨whole, rest⟩

theorem WellFormed.between (formed : WellFormed (text.extract first last))
    (fits : last ≤ text.size) (left : text.IsCut first last position)
    {other : Nat} (right : text.IsCut first last other) (ordered : position ≤ other) :
    WellFormed (text.extract position other) := by
  have rest := (formed.cut fits left.2).2
  rcases cutsAfter_total left.2 right.2 with onward | back
  · exact (rest.cut fits onward).1
  · have same := Nat.le_antisymm ordered (le_of_cutsAfter back)
    rw [same, Array.extract_empty_of_stop_le_start (Nat.le_refl other)]
    exact .empty

end Octets

namespace Subject

variable {subject : Subject} {direction : Direction} {position landing : Nat}

def IsCut (subject : Subject) (position : Nat) : Prop :=
  subject.text.octets.IsCut subject.lower subject.upper position

/-- What the one relation leads to from a cut is a cut, and the other relation
leads back from there. -/
def Mirrors (subject : Subject) (there back : Nat → Nat → Prop) : Prop :=
  ∀ ⦃position landing⦄, subject.IsCut position → there position landing →
    subject.IsCut landing ∧ back landing position

theorem isCut_lower (subject : Subject) : subject.IsCut subject.lower :=
  .opening subject.lower_le_upper

theorem isCut_upper (subject : Subject) : subject.IsCut subject.upper :=
  Octets.isCut_last subject.lower_le_upper

theorem IsCut.covers (cut : subject.IsCut position) : subject.covers position = true :=
  covers_iff.mpr ⟨cut.first_le, cut.le_last⟩

/-! ## Units -/

theorem codePointAhead_forward (covered : subject.covers position = true)
    (inside : position < subject.upper) :
    subject.codePointAhead position .forward =
      some (subject.text.octets.unitFrom position subject.upper) := by
  simp only [codePointAhead, covered, if_true]
  exact if_neg (Nat.ne_of_lt inside)

theorem codePointAhead_reverse (covered : subject.covers position = true)
    (inside : subject.lower < position) :
    subject.codePointAhead position .reverse =
      some (subject.text.octets.unitBefore subject.lower position) := by
  simp only [codePointAhead, covered, if_true]
  exact if_neg (Nat.ne_of_gt inside)

theorem codePointAhead_back {unit : TextUnit} (cut : subject.IsCut position)
    (found : subject.codePointAhead position direction = some unit) :
    subject.IsCut (unit.landing direction) ∧ unit.landing direction.opposite = position ∧
      subject.codePointAhead (unit.landing direction) direction.opposite = some unit := by
  rcases codePointAhead_eq_some found with ⟨covered, shape⟩
  cases direction with
  | forward =>
      rcases shape with ⟨inside, rfl⟩
      have landed := cut.next inside
      have ahead := subject.text.octets.lt_unitFrom_last inside
      have behind := cut.first_le
      refine ⟨landed, subject.text.octets.unitFrom_first _ _, ?_⟩
      have back := codePointAhead_reverse (IsCut.covers landed) (by omega)
      rw [Octets.unitBefore_unitFrom cut inside] at back
      exact back
  | reverse =>
      rcases shape with ⟨inside, rfl⟩
      rcases cut.previous inside with ⟨before, landed, below, rfl⟩
      rw [Octets.unitBefore_unitFrom landed below]
      have first := subject.text.octets.unitFrom_first before subject.upper
      simp only [TextUnit.landing, Direction.opposite, first]
      exact ⟨landed, trivial, codePointAhead_forward (IsCut.covers landed) below⟩

theorem passUnits_add (first more : Nat) :
    subject.passUnits direction (first + more) position =
      (subject.passUnits direction first position).bind
        (subject.passUnits direction more) := by
  induction first generalizing position with
  | zero => rw [Nat.zero_add, passUnits, Option.bind_some]
  | succ first induction =>
      rw [Nat.succ_add, passUnits, passUnits, Option.bind_eq_bind]
      cases subject.unitAhead position direction with
      | none => rfl
      | some unit => exact induction

theorem passUnits_succ {count : Nat} {unit : TextUnit}
    (passes : subject.passUnits direction count position = some landing)
    (found : subject.unitAhead landing direction = some unit) :
    subject.passUnits direction (count + 1) position = some (unit.landing direction) := by
  rw [passUnits_add, passes, Option.bind_some, passUnits, found]
  rfl

/-- From the given positions every step over a unit leads to one of them, and the step in
the opposite direction leads back over the same unit. -/
def Retraces (subject : Subject) (stops : Nat → Prop) : Prop :=
  ∀ ⦃position direction unit⦄, stops position →
    subject.unitAhead position direction = some unit →
      stops (unit.landing direction) ∧ unit.landing direction.opposite = position ∧
        subject.unitAhead (unit.landing direction) direction.opposite = some unit

theorem Retraces.passUnits {stops : Nat → Prop} {count : Nat}
    (retraces : subject.Retraces stops) (stop : stops position)
    (passes : subject.passUnits direction count position = some landing) :
    stops landing ∧ subject.passUnits direction.opposite count landing = some position := by
  induction count generalizing position with
  | zero =>
      cases passes
      exact ⟨stop, rfl⟩
  | succ count induction =>
      rw [Subject.passUnits, Option.bind_eq_bind, Option.bind_eq_some_iff] at passes
      rcases passes with ⟨unit, found, rest⟩
      rcases retraces stop found with ⟨middle, back, again⟩
      rcases induction middle rest with ⟨landed, returns⟩
      rw [← back]
      exact ⟨landed, passUnits_succ returns again⟩

section

variable (codePoints : subject.granularity = .codePoint)
include codePoints

theorem unitAhead_of_codePoints (position : Nat) (direction : Direction) :
    subject.unitAhead position direction = subject.codePointAhead position direction := by
  rw [unitAhead, codePoints]

theorem retraces_cuts : subject.Retraces subject.IsCut := by
  intro position direction unit cut found
  rw [unitAhead_of_codePoints codePoints] at found ⊢
  exact codePointAhead_back cut found

theorem passUnit_mirrors (direction : Direction) (test : Rune → Bool) :
    subject.Mirrors (subject.passUnit · direction test = some ·)
      (subject.passUnit · direction.opposite test = some ·) := by
  intro position landing cut passes
  simp only [passUnit, unitAhead_of_codePoints codePoints, Option.map_eq_some_iff,
    Option.filter_eq_some_iff] at passes ⊢
  rcases passes with ⟨unit, ⟨found, passed⟩, rfl⟩
  rcases codePointAhead_back cut found with ⟨landed, back, again⟩
  exact ⟨landed, unit, ⟨again, passed⟩, back⟩

theorem passUnits_mirrors (direction : Direction) (count : Nat) :
    subject.Mirrors (subject.passUnits direction count · = some ·)
      (subject.passUnits direction.opposite count · = some ·) :=
  fun _ _ cut passes => (retraces_cuts codePoints).passUnits cut passes

end

/-! ## Literals -/

theorem passExact_eq_some_iff {literal : Octets} :
    subject.passExact position literal.all direction = some landing ↔
      subject.covers position = true ∧
        match direction with
        | .forward => landing = position + literal.size ∧ landing ≤ subject.upper ∧
            subject.text.octets.Holds position literal
        | .reverse => position = landing + literal.size ∧ subject.lower ≤ landing ∧
            subject.text.octets.Holds landing literal := by
  have agrees : ∀ start, subject.text.octets.agrees literal.all.octets literal.size start
      literal.all.first = true ↔ subject.text.octets.Holds start literal := by
    intro start
    simp only [Octets.all, Octets.agrees_iff, Nat.zero_add]
    rfl
  have size : literal.all.size = literal.size := rfl
  unfold passExact
  rw [size]
  by_cases admitted : subject.covers position = true ∧
      literal.size ≤ subject.room position direction
  · rw [if_pos admitted]
    rcases admitted with ⟨covered, fits⟩
    have within := covers_iff.mp covered
    cases direction with
    | forward =>
        simp only [room] at fits
        simp only [Option.ite_none_right_eq_some, Option.some.injEq]
        rw [agrees]
        constructor
        · intro holds
          rcases holds with ⟨holds, rfl⟩
          exact ⟨covered, rfl, by omega, holds⟩
        · intro holds
          rcases holds with ⟨-, rfl, -, holds⟩
          exact ⟨holds, rfl⟩
    | reverse =>
        simp only [room] at fits
        simp only [Option.ite_none_right_eq_some, Option.some.injEq]
        rw [agrees]
        constructor
        · intro holds
          rcases holds with ⟨holds, rfl⟩
          exact ⟨covered, by omega, by omega, holds⟩
        · intro holds
          rcases holds with ⟨-, rfl, -, holds⟩
          rw [Nat.add_sub_cancel]
          exact ⟨holds, rfl⟩
  · rw [if_neg admitted]
    refine iff_of_false (fun passes => by cases passes) ?_
    intro holds
    rcases holds with ⟨covered, shape⟩
    refine admitted ⟨covered, ?_⟩
    rw [covers_iff] at covered
    cases direction <;> simp only [room] <;> omega

theorem passExact_mirrors {literal : Octets} (formed : literal.WellFormed)
    (direction : Direction) :
    subject.Mirrors (subject.passExact · literal.all direction = some ·)
      (subject.passExact · literal.all direction.opposite = some ·) := by
  intro position landing cut passes
  rw [passExact_eq_some_iff] at passes
  rcases passes with ⟨-, passes⟩
  cases direction with
  | forward =>
      rcases passes with ⟨rfl, inside, holds⟩
      have landed : subject.IsCut (position + literal.size) :=
        formed.isCut_end holds inside cut
      exact ⟨landed, passExact_eq_some_iff.mpr ⟨landed.covers, rfl, cut.first_le, holds⟩⟩
  | reverse =>
      rcases passes with ⟨rfl, behind, holds⟩
      have landed : subject.IsCut landing := formed.isCut_start holds behind cut
      exact ⟨landed, passExact_eq_some_iff.mpr ⟨landed.covers, rfl, cut.le_last, holds⟩⟩

variable [CharacterData]

/-- The part of a literal that has been compared, while what lies between
`first` and `last` has not, leads back to the origin. -/
def Compared (subject : Subject) (literal : Octets) (direction : Direction)
    (position first last origin : Nat) : Prop :=
  subject.IsCut position ∧
    match direction with
    | .forward => last = literal.size ∧ literal.IsCut 0 literal.size first ∧
        subject.passFolded literal .reverse position 0 first = some origin
    | .reverse => first = 0 ∧ literal.IsCut 0 literal.size last ∧
        subject.passFolded literal .forward position last literal.size = some origin

theorem Compared.passFolded {literal : Octets} {first last origin : Nat}
    (compared : subject.Compared literal direction position first last origin)
    (passes : subject.passFolded literal direction position first last = some landing) :
    subject.IsCut landing ∧
      subject.passFolded literal direction.opposite landing 0 literal.size = some origin := by
  fun_induction Subject.passFolded subject literal direction position first last with
  | case1 position first last inside wanted unit found same induction =>
      rcases compared with ⟨cut, rfl, within, passed⟩
      rcases codePointAhead_back cut found with ⟨landed, back, again⟩
      have ahead : first < wanted.last := literal.lt_unitFrom_last inside
      have read : literal.unitBefore 0 wanted.last = wanted :=
        Octets.unitBefore_unitFrom within inside
      have start : wanted.first = first := literal.unitFrom_first first _
      have passed : subject.passFolded literal .reverse unit.last 0 wanted.last =
          some origin := by
        rw [Subject.passFolded, if_pos (by omega)]
        simp only [TextUnit.landing, Direction.opposite] at back again
        simp only [again, read, same, if_true, back, start, passed]
      exact induction ⟨landed, rfl, within.next inside, passed⟩ passes
  | case2 => cases passes
  | case3 => cases passes
  | case4 position first last inside wanted unit found same induction =>
      rcases compared with ⟨cut, rfl, within, passed⟩
      rcases codePointAhead_back cut found with ⟨landed, back, again⟩
      rcases within.previous inside with ⟨before, earlier, below, rfl⟩
      have read : wanted = literal.unitFrom before literal.size :=
        Octets.unitBefore_unitFrom earlier below
      have start : wanted.first = before := by
        rw [read]
        exact literal.unitFrom_first before _
      have passed : subject.passFolded literal .forward unit.first before literal.size =
          some origin := by
        rw [Subject.passFolded, if_pos below]
        simp only [TextUnit.landing, Direction.opposite] at back again
        rw [← read]
        simp only [again, same, if_true, back]
        rw [read]
        exact passed
      rw [start] at induction passes
      exact induction ⟨landed, rfl, earlier, passed⟩ passes
  | case5 => cases passes
  | case6 => cases passes
  | case7 direction position first last empty =>
      cases passes
      rcases compared with ⟨cut, bounds⟩
      cases direction with
      | forward =>
          rcases bounds with ⟨rfl, within, passed⟩
          have := within.le_last
          obtain rfl : first = literal.size := by omega
          exact ⟨cut, passed⟩
      | reverse =>
          rcases bounds with ⟨rfl, within, passed⟩
          obtain rfl : last = 0 := by omega
          exact ⟨cut, passed⟩

theorem passFolded_mirrors (literal : Octets) (direction : Direction) :
    subject.Mirrors (subject.passFolded literal direction · 0 literal.size = some ·)
      (subject.passFolded literal direction.opposite · 0 literal.size = some ·) := by
  intro position landing cut passes
  have start : subject.Compared literal direction position 0 literal.size position := by
    refine ⟨cut, ?_⟩
    cases direction with
    | forward => exact ⟨rfl, .opening (Nat.zero_le _), by rw [passFolded, if_neg (by omega)]⟩
    | reverse =>
        exact ⟨rfl, Octets.isCut_last (Nat.zero_le _), by rw [passFolded, if_neg (by omega)]⟩
  exact start.passFolded passes

theorem passLiteral_mirrors {literal : Octets} (formed : literal.WellFormed)
    (direction : Direction) (caseless : Bool) :
    subject.Mirrors (subject.passLiteral · literal.all direction caseless = some ·)
      (subject.passLiteral · literal.all direction.opposite caseless = some ·) := by
  cases caseless with
  | false => exact passExact_mirrors formed direction
  | true =>
      intro position landing cut passes
      simp only [passLiteral, if_true, cut.covers] at passes
      rcases passFolded_mirrors literal direction cut passes with ⟨landed, back⟩
      refine ⟨landed, ?_⟩
      simp only [passLiteral, if_true, landed.covers]
      exact back

end Subject

end RegexMachine
