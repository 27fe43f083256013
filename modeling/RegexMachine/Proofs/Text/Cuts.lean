import Mathlib.Logic.Relation
import RegexMachine.Proofs.Text.Units

/-! # Where a range is cut

Reading a range unit by unit from its first position cuts it at some of its
positions. Every lead octet of the range stands at a cut, so looking back from
a cut finds the very unit that was read up to it, ill formed or not. -/

namespace RegexMachine

namespace Octets

variable {text : Octets} {first last position other : Nat}

/-- The unit at the one position ends at the other. -/
def CutAfter (text : Octets) (last position landing : Nat) : Prop :=
  position < last ∧ landing = (text.unitFrom position last).last

/-- The units from the first position of the range on come to this one. -/
def IsCut (text : Octets) (first last position : Nat) : Prop :=
  first ≤ last ∧ Relation.ReflTransGen (text.CutAfter last) first position

theorem CutAfter.lt {landing : Nat} (step : text.CutAfter last position landing) :
    position < landing := by
  rcases step with ⟨inside, rfl⟩
  exact text.lt_unitFrom_last inside

theorem CutAfter.le_last {landing : Nat} (step : text.CutAfter last position landing) :
    landing ≤ last := by
  rcases step with ⟨inside, rfl⟩
  exact text.unitFrom_last_le inside

theorem le_of_cutsAfter (path : Relation.ReflTransGen (text.CutAfter last) position other) :
    position ≤ other := by
  induction path with
  | refl => exact Nat.le_refl _
  | tail _ step induction => exact Nat.le_trans induction (Nat.le_of_lt step.lt)

theorem cutsAfter_total (left : Relation.ReflTransGen (text.CutAfter last) first position)
    (right : Relation.ReflTransGen (text.CutAfter last) first other) :
    Relation.ReflTransGen (text.CutAfter last) position other ∨
      Relation.ReflTransGen (text.CutAfter last) other position := by
  refine Relation.ReflTransGen.total_of_right_unique ?_ left right
  intro _ _ _ decoded other
  rcases decoded with ⟨-, rfl⟩
  rcases other with ⟨-, rfl⟩
  rfl

namespace IsCut

theorem first_le (cut : text.IsCut first last position) : first ≤ position :=
  le_of_cutsAfter cut.2

theorem le_last (cut : text.IsCut first last position) : position ≤ last := by
  rcases cut with ⟨ordered, path⟩
  cases path with
  | refl => exact ordered
  | tail _ step => exact step.le_last

theorem opening (ordered : first ≤ last) : text.IsCut first last first :=
  ⟨ordered, .refl⟩

theorem next (cut : text.IsCut first last position) (inside : position < last) :
    text.IsCut first last (text.unitFrom position last).last :=
  ⟨cut.1, cut.2.tail ⟨inside, rfl⟩⟩

theorem previous (cut : text.IsCut first last position) (behind : first < position) :
    ∃ before, text.IsCut first last before ∧ before < last ∧
      position = (text.unitFrom before last).last := by
  rcases cut with ⟨ordered, path⟩
  cases path with
  | refl => omega
  | tail path step => exact ⟨_, ⟨ordered, path⟩, step⟩

theorem unitFrom_last_le_of_lt (cut : text.IsCut first last position)
    (later : text.IsCut first last other) (before : position < other) :
    (text.unitFrom position last).last ≤ other := by
  rcases cutsAfter_total cut.2 later.2 with path | path
  · cases path using Relation.ReflTransGen.head_induction_on with
    | refl => omega
    | head step path =>
        rcases step with ⟨-, rfl⟩
        exact le_of_cutsAfter path
  · have := le_of_cutsAfter path
    omega

end IsCut

theorem exists_cut_unitFrom (text : Octets) (behind : first ≤ position) (inside : position < last) :
    ∃ cut, text.IsCut first last cut ∧ cut ≤ position ∧
      position < (text.unitFrom cut last).last := by
  induction position with
  | zero =>
      obtain rfl : first = 0 := by omega
      exact ⟨0, .opening (by omega), Nat.le_refl _, text.lt_unitFrom_last inside⟩
  | succ position induction =>
      by_cases here : first = position + 1
      · subst here
        exact ⟨_, .opening (by omega), Nat.le_refl _, text.lt_unitFrom_last inside⟩
      · rcases induction (by omega) (by omega) with ⟨cut, isCut, below, above⟩
        by_cases ends : (text.unitFrom cut last).last = position + 1
        · have next := isCut.next (by omega)
          rw [ends] at next
          exact ⟨_, next, Nat.le_refl _, text.lt_unitFrom_last inside⟩
        · exact ⟨cut, isCut, by omega, by omega⟩

theorem isCut_last (ordered : first ≤ last) : text.IsCut first last last := by
  rcases Nat.eq_or_lt_of_le ordered with rfl | nonempty
  · exact .opening ordered
  · have behind : first ≤ last - 1 := by omega
    have inside : last - 1 < last := by omega
    rcases exists_cut_unitFrom text behind inside with ⟨cut, isCut, below, above⟩
    have next := isCut.next (by omega)
    have := next.le_last
    rwa [show (text.unitFrom cut last).last = last by omega] at next

/-- A lead octet is not inside of a unit, so it starts one. -/
theorem isCut_of_isLead {octet : UInt8} (behind : first ≤ position) (inside : position < last)
    (found : text[position]? = some octet) (lead : Utf8.isLead octet = true) :
    text.IsCut first last position := by
  rcases exists_cut_unitFrom text behind inside with ⟨cut, isCut, below, above⟩
  rcases Nat.eq_or_lt_of_le below with rfl | before
  · exact isCut
  · rw [not_isLead_of_inside before above found (by omega)] at lead
    cases lead

/-! ## Looking back -/

theorem leadBefore?_eq_some_iff {distance : Nat} :
    text.leadBefore? first last = some distance ↔
      (0 < distance ∧ distance ≤ 4 ∧ distance ≤ last - first ∧
        text[last - distance]?.any Utf8.isLead = true) ∧
      ∀ nearer, 0 < nearer → nearer < distance →
        text[last - nearer]?.any Utf8.isLead = false := by
  have distances : [1, 2, 3, 4] = List.range' 1 4 := rfl
  simp only [leadBefore?, distances, List.find?_range'_eq_some, List.mem_range'_1,
    Bool.and_eq_true, decide_eq_true_eq, Bool.not_eq_true', Bool.and_eq_false_iff,
    decide_eq_false_iff_not]
  constructor
  · intro found
    rcases found with ⟨⟨near, lead⟩, range, nearest⟩
    refine ⟨⟨by omega, by omega, near, lead⟩, fun nearer positive nearby => ?_⟩
    exact (nearest nearer positive nearby).resolve_left (by omega)
  · intro found
    rcases found with ⟨⟨positive, four, near, lead⟩, nearest⟩
    exact ⟨⟨near, lead⟩, by omega, fun nearer positive nearby =>
      .inr (nearest nearer positive nearby)⟩

theorem unitBefore_of_decode? {rune : Rune} {count : Nat} (behind : first ≤ position)
    (decoded : Utf8.decode? (text.window position last) = some (rune, count)) :
    text.unitBefore first (position + count) = ⟨rune, position, position + count⟩ := by
  have positive := Utf8.decode?_length_pos decoded
  have four := Utf8.decode?_length_le_four decoded
  have fits := Utf8.decode?_length_le decoded
  have size := length_window_le text position last
  have read : ∀ index < count, (text.window position last)[index]? =
      text[position + index]? := by
    intro index inside
    rw [window_getElem?, if_pos (by omega)]
  have leads : ∀ index < count, text[position + index]?.any Utf8.isLead =
      decide (index = 0) := by
    intro index inside
    have present : index < (text.window position last).length := by omega
    rw [← read index inside, List.getElem?_eq_getElem present]
    exact Utf8.decode?_isLead decoded inside (List.getElem?_eq_getElem present)
  have found : text.leadBefore? first (position + count) = some count := by
    refine leadBefore?_eq_some_iff.mpr ⟨⟨positive, four, by omega, ?_⟩, ?_⟩
    · rw [Nat.add_sub_cancel]
      exact leads 0 positive
    · intro nearer near nearby
      rw [Nat.add_sub_assoc (by omega), leads _ (by omega), decide_eq_false_iff_not]
      omega
  have shorter : text.unitFrom position (position + count) =
      ⟨rune, position, position + count⟩ := by
    have unit := unitFrom_of_decode? decoded
    rw [← unit]
    exact unitFrom_eq_of_last_le (by omega) (by omega)
      (Nat.le_of_eq (congrArg TextUnit.last unit))
  rw [unitBefore, found]
  simp only [Nat.add_sub_cancel, shorter, if_true]

theorem unitFrom_last_le_of_isLead {octet : UInt8} (cut : text.IsCut first last position)
    (behind : first ≤ other) (before : other < position) (inside : position < last)
    (found : text[other]? = some octet) (lead : Utf8.isLead octet = true) :
    (text.unitFrom other (position + 1)).last ≤ position := by
  have ends := (isCut_of_isLead behind (by omega) found lead).unitFrom_last_le_of_lt cut before
  have same : text.unitFrom other (position + 1) = text.unitFrom other last :=
    unitFrom_eq_of_last_le (by omega) inside (by omega)
  rw [same]
  exact ends

theorem unitBefore_of_stray (cut : text.IsCut first last position)
    (inside : position < last)
    (undecoded : Utf8.decode? (text.window position last) = none) :
    text.unitBefore first (position + 1) = ⟨Rune.replacement, position, position + 1⟩ := by
  have behind := cut.first_le
  have stray := unitFrom_of_stray undecoded inside
  have alone : text.unitFrom position (position + 1) =
      ⟨Rune.replacement, position, position + 1⟩ := by
    rw [← stray]
    exact unitFrom_eq_of_last_le (by omega) inside
      (Nat.le_of_eq (congrArg TextUnit.last stray))
  have octet : strayBefore first (position + 1) =
      ⟨Rune.replacement, position, position + 1⟩ := by
    rw [strayBefore, if_pos (by omega), Nat.add_sub_cancel]
  rw [unitBefore]
  split
  · exact octet
  · next distance found =>
      split
      · next ends =>
          rcases leadBefore?_eq_some_iff.mp found with ⟨⟨positive, -, near, lead⟩, -⟩
          rcases (Option.any_eq_true _ _).mp lead with ⟨_, read, leads⟩
          have here : position + 1 - distance = position := by
            rcases Nat.lt_or_ge (position + 1 - distance) position with before | _
            · have := unitFrom_last_le_of_isLead cut (by omega) before inside read leads
              omega
            · omega
          rw [here]
          exact alone
      · exact octet

/-- Looking back from where a unit ends finds the unit. -/
theorem unitBefore_unitFrom (cut : text.IsCut first last position)
    (inside : position < last) :
    text.unitBefore first (text.unitFrom position last).last =
      text.unitFrom position last := by
  cases decoded : Utf8.decode? (text.window position last) with
  | none =>
      rw [unitFrom_of_stray decoded inside]
      exact unitBefore_of_stray cut inside decoded
  | some found =>
      rw [unitFrom_of_decode? decoded]
      exact unitBefore_of_decode? cut.first_le decoded

end Octets

end RegexMachine
