import Mathlib
import RegexMachine.Rune.Set

/-! # Membership in rune sets

Bisection answers for a set whose intervals ascend in both of their ends. Normalising
makes such a set of any row that pushing can give, and of the same runes: sorting puts
the first runes in order, and joining leaves gaps behind, so that the last runes are in
order as well. -/

namespace RegexMachine

namespace Interval

variable {interval : Interval} {rune : Rune}

theorem contains_iff :
    interval.contains rune = true ↔ interval.first ≤ rune ∧ rune ≤ interval.last := by
  rw [contains, Bool.and_eq_true, decide_eq_true_eq, decide_eq_true_eq]

/-- The interval ends inside of the code space. It begins there too or holds nothing. -/
structure Settled (interval : Interval) : Prop where
  last_le : interval.last ≤ Rune.last
  ordered : interval.first ≤ interval.last ∨ interval.last = Rune.last

theorem settled_cut {first last : Rune} (ordered : first ≤ last) :
    Settled ⟨first, min last Rune.last⟩ where
  last_le := min_le_right _ _
  ordered := by
    rcases le_total last Rune.last with inside | beyond
    · left
      simpa only [min_eq_left inside] using ordered
    · right
      exact min_eq_right beyond

theorem ascends_iff {left right : Interval} : left.ascends right = true ↔
    left.first < right.first ∨ left.first = right.first ∧ left.last ≤ right.last := by
  rw [ascends, Bool.or_eq_true, Bool.and_eq_true, decide_eq_true_eq, decide_eq_true_eq,
    beq_iff_eq]

theorem ascends_trans (left middle right : Interval) (first : left.ascends middle = true)
    (second : middle.ascends right = true) : left.ascends right = true := by
  rw [ascends_iff] at first second ⊢
  unfold Rune at first second ⊢
  omega

theorem ascends_total (left right : Interval) :
    (left.ascends right || right.ascends left) = true := by
  rw [Bool.or_eq_true, ascends_iff, ascends_iff]
  unfold Rune
  omega

end Interval

namespace RuneSet

variable {rune : Rune}

/-! ## Joining -/

section

variable {current : Interval} {rest : List Interval}

theorem settled_join (first : current.Settled) (others : ∀ next ∈ rest, next.Settled) :
    ∀ interval ∈ join current rest, interval.Settled := by
  fun_induction join current rest with
  | case1 current => simpa using first
  | case2 current next rest touching induction =>
      have following := others next List.mem_cons_self
      refine induction ⟨max_le first.last_le following.last_le, ?_⟩ fun other member =>
        others other (List.mem_cons_of_mem _ member)
      rcases first.ordered with ordered | last
      · exact .inl (le_trans ordered (le_max_left _ _))
      · right
        rw [last]
        exact max_eq_left following.last_le
  | case3 current next rest apart induction =>
      rw [List.forall_mem_cons] at others ⊢
      exact ⟨first, induction others.1 others.2⟩

theorem first_le_of_mem_join
    (ascends : (current :: rest).Pairwise fun left right => left.first ≤ right.first) :
    ∀ interval ∈ join current rest, current.first ≤ interval.first := by
  fun_induction join current rest with
  | case1 current => simp
  | case2 current next rest touching induction =>
      obtain ⟨least, ascends⟩ := List.pairwise_cons.mp ascends
      obtain ⟨-, ascends⟩ := List.pairwise_cons.mp ascends
      exact induction (List.pairwise_cons.mpr ⟨fun other member =>
        least other (List.mem_cons_of_mem _ member), ascends⟩)
  | case3 current next rest apart induction =>
      obtain ⟨least, ascends⟩ := List.pairwise_cons.mp ascends
      rw [List.forall_mem_cons]
      exact ⟨le_refl _, fun interval member =>
        le_trans (least next List.mem_cons_self) (induction ascends interval member)⟩

theorem apart_join
    (ascends : (current :: rest).Pairwise fun left right => left.first ≤ right.first) :
    (join current rest).Pairwise fun left right =>
      left.first ≤ right.first ∧ left.last + 1 < right.first := by
  fun_induction join current rest with
  | case1 current => exact List.pairwise_singleton _ _
  | case2 current next rest touching induction =>
      obtain ⟨least, ascends⟩ := List.pairwise_cons.mp ascends
      obtain ⟨-, ascends⟩ := List.pairwise_cons.mp ascends
      exact induction (List.pairwise_cons.mpr ⟨fun other member =>
        least other (List.mem_cons_of_mem _ member), ascends⟩)
  | case3 current next rest apart induction =>
      obtain ⟨least, ascends⟩ := List.pairwise_cons.mp ascends
      refine List.pairwise_cons.mpr ⟨fun interval member => ?_, induction ascends⟩
      have later := first_le_of_mem_join ascends interval member
      exact ⟨le_trans (least next List.mem_cons_self) later,
        lt_of_lt_of_le (lt_of_not_ge apart) later⟩

theorem contains_union {next : Interval} (ordered : current.first ≤ next.first)
    (touching : next.first ≤ current.last + 1) :
    Interval.contains ⟨current.first, max current.last next.last⟩ rune = true ↔
      current.contains rune = true ∨ next.contains rune = true := by
  simp only [Interval.contains_iff]
  unfold Rune at *
  omega

theorem contains_join
    (ascends : (current :: rest).Pairwise fun left right => left.first ≤ right.first) :
    (∃ interval ∈ join current rest, interval.contains rune = true) ↔
      ∃ interval ∈ current :: rest, interval.contains rune = true := by
  fun_induction join current rest with
  | case1 current => rfl
  | case2 current next rest touching induction =>
      obtain ⟨least, ascends⟩ := List.pairwise_cons.mp ascends
      obtain ⟨-, ascends⟩ := List.pairwise_cons.mp ascends
      rw [induction (List.pairwise_cons.mpr ⟨fun other member =>
        least other (List.mem_cons_of_mem _ member), ascends⟩)]
      simp only [List.exists_mem_cons_iff]
      rw [contains_union (least next List.mem_cons_self) touching, or_assoc]
  | case3 current next rest apart induction =>
      obtain ⟨-, ascends⟩ := List.pairwise_cons.mp ascends
      rw [List.exists_mem_cons_iff, induction ascends, List.exists_mem_cons_iff _ current]

end

/-! ## Normalising -/

def Settled (set : RuneSet) : Prop := ∀ interval ∈ set.intervals, interval.Settled

def Offers (set : RuneSet) (rune : Rune) : Prop :=
  ∃ interval ∈ set.intervals, interval.contains rune = true

variable {set : RuneSet}

theorem sorted_ascends (intervals : List Interval) :
    (intervals.mergeSort Interval.ascends).Pairwise fun left right =>
      left.first ≤ right.first := by
  refine (List.pairwise_mergeSort Interval.ascends_trans Interval.ascends_total
    intervals).imp fun {left right} ascends => ?_
  rcases Interval.ascends_iff.mp ascends with before | ⟨same, -⟩
  · exact le_of_lt before
  · exact le_of_eq same

theorem settled_normalize (settled : set.Settled) : set.normalize.Settled := by
  have sorted : ∀ interval ∈ set.intervals.toList.mergeSort Interval.ascends,
      interval.Settled := fun interval member =>
    settled interval (Array.mem_toList_iff.mp ((List.mergeSort_perm _ _).mem_iff.mp member))
  intro interval member
  rw [normalize, List.mem_toArray] at member
  revert sorted member
  cases set.intervals.toList.mergeSort Interval.ascends with
  | nil => exact fun _ member => nomatch member
  | cons current rest =>
      intro sorted member
      rw [List.forall_mem_cons] at sorted
      exact settled_join sorted.1 sorted.2 interval member

theorem apart_normalize (set : RuneSet) :
    set.normalize.intervals.toList.Pairwise fun left right =>
      left.first ≤ right.first ∧ left.last + 1 < right.first := by
  have ascends := sorted_ascends set.intervals.toList
  rw [normalize]
  revert ascends
  cases set.intervals.toList.mergeSort Interval.ascends with
  | nil => exact fun _ => .nil
  | cons current rest => exact apart_join

theorem offers_normalize (set : RuneSet) (rune : Rune) :
    set.normalize.Offers rune ↔ set.Offers rune := by
  have sorted : (∃ interval ∈ set.intervals.toList.mergeSort Interval.ascends,
      interval.contains rune = true) ↔ set.Offers rune := by
    simp only [Offers, (List.mergeSort_perm _ _).mem_iff, Array.mem_toList_iff]
  have ascends := sorted_ascends set.intervals.toList
  rw [← sorted, Offers, normalize]
  simp only [List.mem_toArray]
  revert ascends
  cases set.intervals.toList.mergeSort Interval.ascends with
  | nil => exact fun _ => Iff.rfl
  | cons current rest => exact contains_join

/-! ## Bisection -/

def Ascends (set : RuneSet) : Prop :=
  ∀ (index other : Nat) (interval later : Interval), set.intervals[index]? = some interval →
    set.intervals[other]? = some later → index ≤ other →
      interval.first ≤ later.first ∧ interval.last ≤ later.last

theorem contains_iff_of_ascends (ascends : set.Ascends) :
    set.contains rune = true ↔ set.Offers rune := by
  have front : HoldsInFront set.intervals (·.last < rune) :=
    fun index other interval later here there ordered before =>
      decide_eq_true (lt_of_le_of_lt (ascends index other interval later here there ordered).2
        (of_decide_eq_true before))
  have separates := separates_frontLength front
  rw [contains]
  generalize frontLength set.intervals (·.last < rune) = place at separates
  constructor
  · intro contains
    obtain ⟨interval, found, holds⟩ := (Option.any_eq_true _ _).mp contains
    exact ⟨interval, Array.mem_of_getElem? found, holds⟩
  · rintro ⟨interval, member, holds⟩
    obtain ⟨index, here⟩ := Array.mem_iff_getElem?.mp member
    have within := Interval.contains_iff.mp holds
    have ordered := separates.le_of_fails here (decide_eq_false (not_lt_of_ge within.2))
    obtain ⟨inside, -⟩ := Array.getElem?_eq_some_iff.mp here
    have found := Array.getElem?_eq_getElem (Nat.lt_of_le_of_lt ordered inside)
    have least := (ascends place index _ interval found here ordered).1
    have reaches := of_decide_eq_false (separates.above place _ found (Nat.le_refl _))
    rw [found, Option.any_some, Interval.contains_iff]
    exact ⟨le_trans least within.1, le_of_not_gt reaches⟩

theorem ascends_normalize (settled : set.Settled) : set.normalize.Ascends := by
  have apart := List.pairwise_iff_getElem.mp (apart_normalize set)
  intro index other interval later here there ordered
  rcases Nat.eq_or_lt_of_le ordered with rfl | before
  · rw [here] at there
    cases there
    exact ⟨le_refl _, le_refl _⟩
  · have settled := settled_normalize settled
    have member := Array.mem_of_getElem? there
    obtain ⟨left, rfl⟩ := Array.getElem?_eq_some_iff.mp here
    obtain ⟨right, rfl⟩ := Array.getElem?_eq_some_iff.mp there
    obtain ⟨first, gap⟩ := apart index other left right before
    have inside := (settled _ (Array.getElem_mem left)).last_le
    refine ⟨first, ?_⟩
    rcases (settled _ member).ordered with ordered | last
    · simp only [Array.getElem_toList] at gap
      exact le_trans (le_of_lt (Nat.lt_of_succ_lt gap)) ordered
    · rw [last]
      exact inside

/-- Membership in a normalised set is membership in an interval that was pushed. -/
theorem contains_normalize (settled : set.Settled) :
    set.normalize.contains rune = true ↔ set.Offers rune := by
  rw [contains_iff_of_ascends (ascends_normalize settled), offers_normalize]

/-! ## Pushing -/

variable {first last : Rune}

theorem settled_empty : empty.Settled := by
  intro interval member
  simp [empty] at member

theorem offers_empty : ¬empty.Offers rune := by
  simp [Offers, empty]

theorem push_eq (ordered : first ≤ last) :
    set.push first last = .ok ⟨set.intervals.push ⟨first, min last Rune.last⟩⟩ :=
  if_neg (not_lt_of_ge ordered)

theorem push_of_ordered (settled : set.Settled) (ordered : first ≤ last) :
    ∃ pushed, set.push first last = .ok pushed ∧ pushed.Settled ∧
      ∀ rune, pushed.Offers rune ↔
        set.Offers rune ∨ first ≤ rune ∧ rune ≤ last ∧ rune ≤ Rune.last := by
  refine ⟨_, push_eq ordered, ?_, fun rune => ?_⟩
  · intro interval member
    rcases Array.mem_push.mp member with member | rfl
    · exact settled interval member
    · exact Interval.settled_cut ordered
  · simp only [Offers, Array.mem_push, or_and_right, exists_or, exists_eq_left,
      Interval.contains_iff, le_min_iff]

variable {fold : Rune → Rune}

theorem mem_newFoldings : rune ∈ newFoldings fold first last ↔
    ∃ member, first ≤ member ∧ member ≤ last ∧ member ≤ Rune.last ∧
      fold member ≠ member ∧ fold member = rune := by
  simp only [newFoldings, List.mem_filterMap, List.mem_range'_1]
  constructor
  · rintro ⟨member, bounds, folds⟩
    split at folds
    · cases folds
    · next changes =>
        cases folds
        unfold Rune at *
        exact ⟨member, bounds.1, by omega, by omega, changes, rfl⟩
  · rintro ⟨member, low, high, inside, changes, rfl⟩
    unfold Rune at *
    exact ⟨member, ⟨low, by omega⟩, by rw [if_neg changes]⟩

theorem pushFolded_eq (ordered : first ≤ last) :
    set.pushFolded first last fold = .ok ⟨set.intervals.push ⟨first, min last Rune.last⟩ ++
      ((newFoldings fold first last).map fun rune => ⟨rune, rune⟩).toArray⟩ := by
  rw [pushFolded, push_eq ordered, ← List.foldl_push_eq_append]
  rfl

/-- Pushing an ordered range with its foldings adds its code points, and what those of
them fold to that fold to another one. -/
theorem pushFolded_of_ordered (stays : ∀ rune ≤ Rune.last, fold rune ≤ Rune.last)
    (settled : set.Settled) (ordered : first ≤ last) :
    ∃ pushed, set.pushFolded first last fold = .ok pushed ∧ pushed.Settled ∧
      ∀ rune, pushed.Offers rune ↔
        set.Offers rune ∨ (first ≤ rune ∧ rune ≤ last ∧ rune ≤ Rune.last) ∨
          ∃ member, first ≤ member ∧ member ≤ last ∧ member ≤ Rune.last ∧
            fold member ≠ member ∧ fold member = rune := by
  obtain ⟨pushed, push, settled, offers⟩ := push_of_ordered settled ordered
  obtain rfl : _ = pushed := Except.ok.inj ((push_eq ordered).symm.trans push)
  refine ⟨_, pushFolded_eq ordered, ?_, fun rune => ?_⟩
  · intro interval member
    rcases Array.mem_append.mp member with member | member
    · exact settled interval member
    · obtain ⟨folded, new, rfl⟩ := List.mem_map.mp (List.mem_toArray.mp member)
      obtain ⟨origin, -, -, inside, -, rfl⟩ := mem_newFoldings.mp new
      exact ⟨stays origin inside, .inl (le_refl _)⟩
  · have single : (∃ folded ∈ newFoldings fold first last,
        (⟨folded, folded⟩ : Interval).contains rune = true) ↔
          rune ∈ newFoldings fold first last := by
      simp only [Interval.contains_iff, ← le_antisymm_iff, exists_eq_right]
    rw [← or_assoc, ← offers, ← mem_newFoldings, ← single]
    simp only [Offers, Array.mem_append, List.mem_toArray, List.mem_map, or_and_right,
      exists_or, exists_exists_and_eq_and]

end RuneSet

end RegexMachine
