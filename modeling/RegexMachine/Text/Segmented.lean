import RegexMachine.Bisection
import RegexMachine.Text.Octets

/-! # Texts with boundaries

A segmented text is a text together with the positions at which its clusters
begin and end. Nothing in the machine looks at how they were found, so a text
can also be given the boundaries of its units where its clusters are not
known. -/

namespace RegexMachine

/-! ## Boundaries -/

/-- Positions in a text, each before the next. -/
structure Boundaries where
  positions : Array Nat
  ascend : positions.toList.Pairwise (· < ·)
deriving DecidableEq, Repr

namespace Boundaries

def ascends : List Nat → Bool
  | first :: second :: rest => first < second && ascends (second :: rest)
  | _ => true

theorem pairwise_of_ascends {positions : List Nat} (ordered : ascends positions = true) :
    positions.Pairwise (· < ·) := by
  fun_induction ascends positions with
  | case1 first second rest induction =>
      rw [Bool.and_eq_true, decide_eq_true_eq] at ordered
      have others := induction ordered.2
      refine List.pairwise_cons.mpr ⟨fun position member => ?_, others⟩
      rcases List.mem_cons.mp member with rfl | behind
      · exact ordered.1
      · exact Nat.lt_trans ordered.1 ((List.pairwise_cons.mp others).1 position behind)
  | case2 positions short =>
      cases positions with
      | nil => exact .nil
      | cons first rest =>
          cases rest with
          | nil => exact List.pairwise_singleton _ _
          | cons second rest => exact absurd rfl (short first second rest)

def ofList? (positions : List Nat) : Option Boundaries :=
  if ordered : ascends positions = true then
    some ⟨positions.toArray, pairwise_of_ascends ordered⟩
  else none

def after? (boundaries : Boundaries) (position : Nat) : Option Nat :=
  boundaries.positions[frontLength boundaries.positions (· ≤ position)]?

def before? (boundaries : Boundaries) (position : Nat) : Option Nat :=
  let place := frontLength boundaries.positions (· < position)
  if place = 0 then none else boundaries.positions[place - 1]?

def contains (boundaries : Boundaries) (position : Nat) : Bool :=
  boundaries.positions[frontLength boundaries.positions (· < position)]?.any
    (· ≤ position)

variable {boundaries : Boundaries} {position found : Nat}

theorem le_of_index_le {index other earlier later : Nat}
    (here : boundaries.positions[index]? = some earlier)
    (there : boundaries.positions[other]? = some later) (ordered : index ≤ other) :
    earlier ≤ later := by
  obtain ⟨inside, rfl⟩ := Array.getElem?_eq_some_iff.mp here
  obtain ⟨within, rfl⟩ := Array.getElem?_eq_some_iff.mp there
  rcases Nat.lt_or_eq_of_le ordered with before | rfl
  · exact Nat.le_of_lt
      (List.pairwise_iff_getElem.mp boundaries.ascend index other inside within before)
  · exact Nat.le_refl _

theorem separates {test : Nat → Bool}
    (front : ∀ earlier later, earlier ≤ later → test later = true → test earlier = true) :
    Separates boundaries.positions test (frontLength boundaries.positions test)
      (frontLength boundaries.positions test) :=
  separates_frontLength fun _ _ _ _ here there ordered =>
    front _ _ (le_of_index_le here there ordered)

theorem separates_le (boundaries : Boundaries) (position : Nat) :
    Separates boundaries.positions (· ≤ position)
      (frontLength boundaries.positions (· ≤ position))
      (frontLength boundaries.positions (· ≤ position)) := by
  apply separates
  simp only [decide_eq_true_eq]
  omega

theorem separates_lt (boundaries : Boundaries) (position : Nat) :
    Separates boundaries.positions (· < position)
      (frontLength boundaries.positions (· < position))
      (frontLength boundaries.positions (· < position)) := by
  apply separates
  simp only [decide_eq_true_eq]
  omega

theorem exists_after? {other : Nat} (member : other ∈ boundaries.positions)
    (ahead : position < other) :
    ∃ found, boundaries.after? position = some found ∧ found ≤ other := by
  have separates := boundaries.separates_le position
  obtain ⟨index, there⟩ := Array.mem_iff_getElem?.mp member
  have ordered := separates.le_of_fails there (decide_eq_false (Nat.not_le_of_lt ahead))
  obtain ⟨inside, -⟩ := Array.getElem?_eq_some_iff.mp there
  have here := Array.getElem?_eq_getElem (Nat.lt_of_le_of_lt ordered inside)
  exact ⟨_, here, le_of_index_le here there ordered⟩

theorem after?_eq_some_iff :
    boundaries.after? position = some found ↔
      found ∈ boundaries.positions ∧ position < found ∧
        ∀ other ∈ boundaries.positions, position < other → found ≤ other := by
  have later {found : Nat} (here : boundaries.after? position = some found) :
      found ∈ boundaries.positions ∧ position < found := by
    have fails := (boundaries.separates_le position).above _ found here (Nat.le_refl _)
    exact ⟨Array.mem_of_getElem? here, Nat.lt_of_not_le (of_decide_eq_false fails)⟩
  constructor
  · intro here
    refine ⟨(later here).1, (later here).2, fun other member ahead => ?_⟩
    obtain ⟨nearest, found, near⟩ := exists_after? member ahead
    cases here.symm.trans found
    exact near
  · rintro ⟨member, ahead, nearest⟩
    obtain ⟨other, here, near⟩ := exists_after? member ahead
    rw [here, Nat.le_antisymm near (nearest other (later here).1 (later here).2)]

theorem exists_before? {other : Nat} (member : other ∈ boundaries.positions)
    (behind : other < position) :
    ∃ found, boundaries.before? position = some found ∧ other ≤ found := by
  have separates := boundaries.separates_lt position
  have within := frontLength_le_size boundaries.positions (· < position)
  obtain ⟨index, there⟩ := Array.mem_iff_getElem?.mp member
  have ordered := separates.lt_of_holds there (decide_eq_true behind)
  simp only [before?]
  generalize frontLength boundaries.positions (· < position) = place at within ordered
  have inside : place - 1 < boundaries.positions.size := by omega
  have here := Array.getElem?_eq_getElem inside
  exact ⟨_, (if_neg (by omega)).trans here, le_of_index_le there here (by omega)⟩

theorem before?_eq_some_iff :
    boundaries.before? position = some found ↔
      found ∈ boundaries.positions ∧ found < position ∧
        ∀ other ∈ boundaries.positions, other < position → other ≤ found := by
  have earlier {found : Nat} (here : boundaries.before? position = some found) :
      found ∈ boundaries.positions ∧ found < position := by
    have separates := boundaries.separates_lt position
    rw [before?] at here
    split at here
    · cases here
    · next front =>
        have holds := separates.below _ found here (Nat.sub_one_lt front)
        exact ⟨Array.mem_of_getElem? here, of_decide_eq_true holds⟩
  constructor
  · intro here
    refine ⟨(earlier here).1, (earlier here).2, fun other member behind => ?_⟩
    obtain ⟨nearest, found, near⟩ := exists_before? member behind
    cases here.symm.trans found
    exact near
  · rintro ⟨member, behind, nearest⟩
    obtain ⟨other, here, near⟩ := exists_before? member behind
    rw [here, Nat.le_antisymm (nearest other (earlier here).1 (earlier here).2) near]

theorem contains_iff : boundaries.contains position = true ↔ position ∈ boundaries.positions := by
  have separates := boundaries.separates_lt position
  simp only [contains]
  generalize frontLength boundaries.positions (· < position) = place at separates
  constructor
  · intro holds
    obtain ⟨other, here, reaches⟩ := (Option.any_eq_true _ _).mp holds
    have above := of_decide_eq_false (separates.above place other here (Nat.le_refl _))
    have below := of_decide_eq_true reaches
    obtain rfl : other = position := by omega
    exact Array.mem_of_getElem? here
  · intro member
    obtain ⟨index, there⟩ := Array.mem_iff_getElem?.mp member
    have ordered := separates.le_of_fails there (decide_eq_false (Nat.lt_irrefl position))
    obtain ⟨inside, -⟩ := Array.getElem?_eq_some_iff.mp there
    have here := Array.getElem?_eq_getElem (Nat.lt_of_le_of_lt ordered inside)
    rw [here, Option.any_some]
    exact decide_eq_true (le_of_index_le here there ordered)

end Boundaries

namespace Octets

/-- The boundaries of the units of a text in ascending order, both ends
included. -/
def unitBoundaries (text : Octets) : List Nat :=
  (text.units 0 text.size).map (·.first) ++ [text.size]

theorem bounds_of_mem_units {text : Octets} {first last : Nat} {unit : TextUnit}
    (member : unit ∈ text.units first last) : first ≤ unit.first ∧ unit.first < last := by
  fun_induction units text first last with
  | case1 first nonempty induction =>
      have ahead := text.lt_unitFrom_last nonempty
      rcases List.mem_cons.mp member with rfl | later
      · rw [unitFrom_first]
        exact ⟨Nat.le_refl _, nonempty⟩
      · have := induction later
        omega
  | case2 => cases member

theorem units_ascend (text : Octets) (first last : Nat) :
    ((text.units first last).map (·.first)).Pairwise (· < ·) := by
  fun_induction units text first last with
  | case1 first nonempty induction =>
      refine List.pairwise_cons.mpr ⟨fun position member => ?_, induction⟩
      obtain ⟨later, among, rfl⟩ := List.mem_map.mp member
      change (text.unitFrom first last).first < later.first
      rw [unitFrom_first]
      exact Nat.lt_of_lt_of_le (text.lt_unitFrom_last nonempty) (bounds_of_mem_units among).1
  | case2 => exact .nil

theorem unitBoundaries_ascend (text : Octets) : text.unitBoundaries.Pairwise (· < ·) := by
  refine List.pairwise_append.mpr ⟨text.units_ascend 0 text.size, List.pairwise_singleton _ _, ?_⟩
  intro position member last final
  obtain ⟨unit, among, rfl⟩ := List.mem_map.mp member
  rw [List.mem_singleton.mp final]
  exact (bounds_of_mem_units among).2

end Octets

/-! ## Texts -/

structure SegmentedText where
  octets : Octets
  boundaries : Boundaries
deriving DecidableEq, Repr

namespace SegmentedText

def size (text : SegmentedText) : Nat := text.octets.size

def byUnits (octets : Octets) : SegmentedText where
  octets := octets
  boundaries := ⟨octets.unitBoundaries.toArray, octets.unitBoundaries_ascend⟩

/-- The text cut into clusters or, where these could not be found, into units. -/
def segment (octets : Octets) : Option Boundaries → SegmentedText
  | some clusters => ⟨octets, clusters⟩
  | none => byUnits octets

def isBoundary (text : SegmentedText) (position : Nat) : Bool :=
  text.boundaries.contains position

/-- The first boundary after `position`, if it is not after `limit`. -/
def boundaryAfter? (text : SegmentedText) (limit position : Nat) : Option Nat :=
  (text.boundaries.after? position).filter (· ≤ limit)

def boundaryBefore? (text : SegmentedText) (limit position : Nat) : Option Nat :=
  (text.boundaries.before? position).filter (limit ≤ ·)

variable {text : SegmentedText} {limit position found : Nat}

theorem boundaryAfter?_eq_some_iff :
    text.boundaryAfter? limit position = some found ↔
      position < found ∧ found ≤ limit ∧ text.isBoundary found = true ∧
        ∀ other, position < other → other < found → text.isBoundary other = false := by
  rw [boundaryAfter?, Option.filter_eq_some_iff, Boundaries.after?_eq_some_iff,
    decide_eq_true_eq]
  simp only [isBoundary, ← Bool.not_eq_true, Boundaries.contains_iff]
  constructor
  · rintro ⟨⟨member, ahead, nearest⟩, within⟩
    refine ⟨ahead, within, member, fun other behind before among => ?_⟩
    exact Nat.not_le_of_lt before (nearest other among behind)
  · rintro ⟨ahead, within, member, nearest⟩
    refine ⟨⟨member, ahead, fun other among behind => ?_⟩, within⟩
    exact Nat.le_of_not_lt fun before => nearest other behind before among

theorem boundaryBefore?_eq_some_iff :
    text.boundaryBefore? limit position = some found ↔
      limit ≤ found ∧ found < position ∧ text.isBoundary found = true ∧
        ∀ other, found < other → other < position → text.isBoundary other = false := by
  rw [boundaryBefore?, Option.filter_eq_some_iff, Boundaries.before?_eq_some_iff,
    decide_eq_true_eq]
  simp only [isBoundary, ← Bool.not_eq_true, Boundaries.contains_iff]
  constructor
  · rintro ⟨⟨member, behind, nearest⟩, within⟩
    refine ⟨within, behind, member, fun other after before among => ?_⟩
    exact Nat.not_le_of_lt after (nearest other among before)
  · rintro ⟨within, behind, member, nearest⟩
    refine ⟨⟨member, behind, fun other among before => ?_⟩, within⟩
    exact Nat.le_of_not_lt fun after => nearest other after before among

theorem exists_boundaryAfter? {boundary : Nat} (holds : text.isBoundary boundary = true)
    (ahead : position < boundary) (within : boundary ≤ limit) :
    ∃ found, text.boundaryAfter? limit position = some found ∧ found ≤ boundary := by
  obtain ⟨found, here, near⟩ := Boundaries.exists_after? (Boundaries.contains_iff.mp holds) ahead
  have limited := decide_eq_true (Nat.le_trans near within)
  exact ⟨found, Option.filter_eq_some_iff.mpr ⟨here, limited⟩, near⟩

theorem exists_boundaryBefore? {boundary : Nat} (holds : text.isBoundary boundary = true)
    (ahead : boundary < position) (within : limit ≤ boundary) :
    ∃ found, text.boundaryBefore? limit position = some found ∧ boundary ≤ found := by
  obtain ⟨found, here, near⟩ := Boundaries.exists_before? (Boundaries.contains_iff.mp holds) ahead
  have limited := decide_eq_true (Nat.le_trans within near)
  exact ⟨found, Option.filter_eq_some_iff.mpr ⟨here, limited⟩, near⟩

end SegmentedText

end RegexMachine
