import RegexMachine.Proofs.Rune.Membership
import RegexMachine.Rune.Repertoire

/-! # Canonical sets

A canonical set is a row of intervals of code points with gaps between them, and there is
only one for the runes that it holds. Normalising what edits have built gives it, followed
by the empty intervals that are left of ranges which begin beyond the code space: of such
a range only the last rune is cut. -/

namespace RegexMachine

namespace RuneSet

variable {rune first : Rune} {set after : RuneSet}

/-! ## Rows with gaps -/

/-- Intervals of code points in increasing order. Each begins at least two above the end
of the one before, so no two of them could be joined. -/
structure Canonical (set : RuneSet) : Prop where
  within : ∀ interval ∈ set.intervals,
    interval.first ≤ interval.last ∧ interval.last ≤ Rune.last
  apart : set.intervals.toList.Pairwise fun left right => left.last + 2 ≤ right.first

section

variable {row other : List Interval} {interval : Interval}

private theorem above_of_mem_tail
    (apart : (interval :: row).Pairwise fun left right => left.last + 2 ≤ right.first)
    (held : ∃ later ∈ row, later.contains rune = true) : interval.last + 2 ≤ rune := by
  obtain ⟨later, member, holds⟩ := held
  exact le_trans (List.rel_of_pairwise_cons apart member) (Interval.contains_iff.mp holds).1

/-- A row that holds all that another one holds begins no later, and where both begin alike
its first interval ends no earlier. -/
private theorem head_le {next : Interval} (ordered : next.first ≤ next.last)
    (apart : (interval :: row).Pairwise fun left right => left.last + 2 ≤ right.first)
    (inside : interval.first ≤ interval.last)
    (same : ∀ rune : Rune, (∃ held ∈ next :: other, held.contains rune = true) →
      ∃ held ∈ interval :: row, held.contains rune = true) :
    interval.first ≤ next.first ∧
      (interval.first = next.first → next.last ≤ interval.last) := by
  have holds (rune : Rune) (low : next.first ≤ rune) (high : rune ≤ next.last) :
      interval.first ≤ rune ∧ rune ≤ interval.last ∨ interval.last + 2 ≤ rune := by
    have held := same rune ⟨next, List.mem_cons_self, Interval.contains_iff.mpr ⟨low, high⟩⟩
    rcases List.exists_mem_cons_iff _ _ _ |>.mp held with here | later
    · exact .inl (Interval.contains_iff.mp here)
    · exact .inr (above_of_mem_tail apart later)
  constructor
  · rcases holds next.first (le_refl _) ordered with here | later
    · exact here.1
    · unfold Rune at *
      omega
  · intro alike
    by_contra short
    have gap := holds (interval.last + 1)
      (by unfold Rune at *; omega) (by unfold Rune at *; omega)
    unfold Rune at *
    omega

private theorem tails_alike
    (left : (interval :: row).Pairwise fun left right => left.last + 2 ≤ right.first)
    (right : (interval :: other).Pairwise fun left right => left.last + 2 ≤ right.first)
    (same : ∀ rune : Rune, (∃ held ∈ interval :: row, held.contains rune = true) ↔
      ∃ held ∈ interval :: other, held.contains rune = true) (rune : Rune) :
    (∃ held ∈ row, held.contains rune = true) ↔ ∃ held ∈ other, held.contains rune = true := by
  have whole := same rune
  simp only [List.exists_mem_cons_iff] at whole
  have outside : interval.last + 2 ≤ rune → ¬interval.contains rune = true := by
    intro above holds
    have within := (Interval.contains_iff.mp holds).2
    unfold Rune at *
    omega
  constructor
  · intro held
    exact (whole.mp (.inr held)).resolve_left (outside (above_of_mem_tail left held))
  · intro held
    exact (whole.mpr (.inr held)).resolve_left (outside (above_of_mem_tail right held))

/-- There is only one row of intervals with gaps between them that holds given runes. -/
private theorem eq_of_apart (left : ∀ interval ∈ row, interval.first ≤ interval.last)
    (leftApart : row.Pairwise fun left right => left.last + 2 ≤ right.first)
    (right : ∀ interval ∈ other, interval.first ≤ interval.last)
    (rightApart : other.Pairwise fun left right => left.last + 2 ≤ right.first)
    (same : ∀ rune : Rune, (∃ interval ∈ row, interval.contains rune = true) ↔
      ∃ interval ∈ other, interval.contains rune = true) : row = other := by
  have nonempty {interval : Interval} (ordered : interval.first ≤ interval.last) :
      interval.contains interval.first = true :=
    Interval.contains_iff.mpr ⟨le_refl _, ordered⟩
  induction row generalizing other with
  | nil =>
      cases other with
      | nil => rfl
      | cons next later =>
          obtain ⟨_, member, -⟩ := (same next.first).mpr
            ⟨next, List.mem_cons_self, nonempty (right next List.mem_cons_self)⟩
          cases member
  | cons interval row induction =>
      cases other with
      | nil =>
          obtain ⟨_, member, -⟩ := (same interval.first).mp
            ⟨interval, List.mem_cons_self, nonempty (left interval List.mem_cons_self)⟩
          cases member
      | cons next later =>
          rw [List.forall_mem_cons] at left right
          obtain ⟨low, long⟩ := head_le right.1 leftApart left.1 fun rune => (same rune).mpr
          obtain ⟨high, short⟩ := head_le left.1 rightApart right.1 fun rune => (same rune).mp
          have firsts : interval.first = next.first := le_antisymm low high
          have lasts : interval.last = next.last :=
            le_antisymm (short firsts.symm) (long firsts)
          obtain rfl : interval = next := by
            cases interval
            cases next
            exact congr (congrArg Interval.mk firsts) lasts
          rw [induction left.2 leftApart.of_cons right.2 rightApart.of_cons
            (tails_alike leftApart rightApart same)]

end

theorem Canonical.eq_of_offers {other : RuneSet} (left : set.Canonical)
    (right : other.Canonical) (same : ∀ rune, set.Offers rune ↔ other.Offers rune) :
    set = other := by
  have rows : set.intervals.toList = other.intervals.toList := by
    refine eq_of_apart (fun interval member => ?_) left.apart (fun interval member => ?_)
      right.apart fun rune => ?_
    · exact (left.within interval (Array.mem_toList_iff.mp member)).1
    · exact (right.within interval (Array.mem_toList_iff.mp member)).1
    · simpa only [Array.mem_toList_iff, Offers] using same rune
  have intervals : set.intervals = other.intervals := Array.toList_inj.mp rows
  cases set
  cases other
  exact congrArg RuneSet.mk intervals

/-! ## The intervals that hold a rune -/

def populated (set : RuneSet) : RuneSet :=
  ⟨set.intervals.filter fun interval => interval.first ≤ interval.last⟩

theorem offers_populated : set.populated.Offers rune ↔ set.Offers rune := by
  simp only [Offers, populated, Array.mem_filter, decide_eq_true_eq]
  constructor
  · rintro ⟨interval, ⟨member, -⟩, holds⟩
    exact ⟨interval, member, holds⟩
  · rintro ⟨interval, member, holds⟩
    have within := Interval.contains_iff.mp holds
    exact ⟨interval, ⟨member, le_trans within.1 within.2⟩, holds⟩

theorem canonical_populated (settled : set.Settled) : set.normalize.populated.Canonical where
  within interval member := by
    obtain ⟨member, ordered⟩ := Array.mem_filter.mp member
    exact ⟨of_decide_eq_true ordered, (settled_normalize settled interval member).last_le⟩
  apart := by
    rw [populated, Array.toList_filter]
    exact ((apart_normalize set).filter _).imp fun apart => apart.2

private theorem append_strays {row : List Interval}
    (settled : ∀ interval ∈ row, interval.Settled)
    (ascends : row.Pairwise fun left right => left.first ≤ right.first) :
    row = row.filter (fun interval => interval.first ≤ interval.last) ++
      row.filter fun interval => !(interval.first ≤ interval.last : Bool) := by
  induction row with
  | nil => rfl
  | cons interval row induction =>
      rw [List.forall_mem_cons] at settled
      obtain ⟨least, ascends⟩ := List.pairwise_cons.mp ascends
      by_cases ordered : interval.first ≤ interval.last
      · simpa [ordered] using induction settled.2 ascends
      · have empty (later : Interval) (member : later ∈ row) : ¬later.first ≤ later.last := by
          have cut := settled.1.ordered.resolve_left ordered
          have behind := least later member
          have inside := (settled.2 later member).last_le
          unfold Rune at *
          omega
        have none : row.filter (fun interval => interval.first ≤ interval.last) = [] :=
          List.filter_eq_nil_iff.mpr fun later member => by simpa using empty later member
        have all : row.filter (fun interval => !(interval.first ≤ interval.last : Bool)) = row :=
          List.filter_eq_self.mpr fun later member => by simpa using empty later member
        rw [List.filter_cons_of_neg (by simpa using ordered),
          List.filter_cons_of_pos (by simpa using ordered), none, all, List.nil_append]

theorem normalize_eq_append (settled : set.Settled) : ∃ strays : List Interval,
    set.normalize.intervals.toList = set.normalize.populated.intervals.toList ++ strays ∧
      ∀ stray ∈ strays, Rune.last < stray.first ∧ stray.last = Rune.last := by
  have settled := settled_normalize settled
  refine ⟨set.normalize.intervals.toList.filter fun interval =>
    !(interval.first ≤ interval.last : Bool), ?_, fun stray member => ?_⟩
  · rw [populated, Array.toList_filter]
    exact append_strays (fun interval member => settled interval (Array.mem_toList_iff.mp member))
      ((apart_normalize set).imp fun apart => apart.1)
  · obtain ⟨member, empty⟩ := List.mem_filter.mp member
    have empty : ¬stray.first ≤ stray.last := by simpa using empty
    have cut := (settled stray (Array.mem_toList_iff.mp member)).ordered.resolve_left empty
    rw [cut] at empty
    exact ⟨lt_of_not_ge empty, cut⟩

/-! ## Normalising again -/

private theorem join_of_apart {current : Interval} {rest : List Interval}
    (apart : (current :: rest).Pairwise fun left right =>
      left.first ≤ right.first ∧ left.last + 1 < right.first) :
    join current rest = current :: rest := by
  induction rest generalizing current with
  | nil => rfl
  | cons next rest induction =>
      have gap := (List.rel_of_pairwise_cons apart List.mem_cons_self).2
      rw [join, if_neg (not_le_of_gt gap), induction apart.of_cons]

theorem normalize_normalize (settled : set.Settled) :
    set.normalize.normalize = set.normalize := by
  have settled := settled_normalize settled
  have apart := apart_normalize set
  have sorted : set.normalize.intervals.toList.Pairwise fun left right =>
      left.ascends right = true := by
    refine List.Pairwise.imp_of_mem (fun {left right} here there apart => ?_) apart
    rw [Interval.ascends_iff]
    rcases lt_or_eq_of_le apart.1 with before | same
    · exact .inl before
    -- two that begin alike have gaps between them just if both are empty, so both end alike
    · have inside := (settled right (Array.mem_toList_iff.mp there)).last_le
      have empty := (settled left (Array.mem_toList_iff.mp here)).ordered
      have other := (settled right (Array.mem_toList_iff.mp there)).ordered
      have gap := apart.2
      right
      unfold Rune at *
      omega
  generalize set.normalize = normal at apart sorted
  rw [normalize, List.mergeSort_of_pairwise sorted]
  cases row : normal.intervals.toList with
  | nil => rw [joinAll, ← row]
  | cons current rest =>
      rw [row] at apart
      rw [joinAll, join_of_apart apart, ← row]

/-! ## Where intervals begin -/

def Begins (set : RuneSet) (first : Rune) : Prop :=
  ∃ interval ∈ set.intervals, interval.first = first

/-- Joining keeps the beginning of an interval just if no interval that begins earlier
reaches up to it. -/
private theorem begins_join {current : Interval} {rest : List Interval}
    (ascends : (current :: rest).Pairwise fun left right => left.first ≤ right.first) :
    (∃ interval ∈ join current rest, interval.first = first) ↔
      (∃ interval ∈ current :: rest, interval.first = first) ∧
        ∀ interval ∈ current :: rest, interval.first < first → interval.last + 1 < first := by
  fun_induction join current rest with
  | case1 current =>
      simp only [List.mem_singleton, exists_eq_left, forall_eq]
      exact ⟨fun here => ⟨here, fun before => absurd here (ne_of_lt before)⟩, And.left⟩
  | case2 current next rest touching induction =>
      obtain ⟨least, ascends⟩ := List.pairwise_cons.mp ascends
      obtain ⟨-, ascends⟩ := List.pairwise_cons.mp ascends
      have order := least next List.mem_cons_self
      rw [induction (List.pairwise_cons.mpr ⟨fun other member =>
        least other (List.mem_cons_of_mem _ member), ascends⟩)]
      simp only [List.exists_mem_cons_iff, List.forall_mem_cons]
      unfold Rune at *
      constructor
      · rintro ⟨begins, reaches, others⟩
        exact ⟨begins.imp_right .inr, fun before => by have := reaches before; omega,
          fun before => by have := reaches (by omega); omega, others⟩
      · rintro ⟨begins, here, there, others⟩
        refine ⟨?_, fun before => by have := here before; have := there; omega, others⟩
        rcases begins with begins | begins | begins
        · exact .inl begins
        · left
          by_contra apart
          have := here (by omega)
          omega
        · exact .inr begins
  | case3 current next rest apart induction =>
      obtain ⟨least, ascends⟩ := List.pairwise_cons.mp ascends
      obtain ⟨behind, -⟩ := List.pairwise_cons.mp ascends
      rw [List.exists_mem_cons_iff, induction ascends, List.exists_mem_cons_iff _ current,
        List.forall_mem_cons (a := current)]
      constructor
      · rintro (rfl | ⟨⟨interval, member, starts⟩, others⟩)
        · exact ⟨.inl rfl, fun before => absurd before (lt_irrefl _),
            fun interval member before =>
              absurd before (not_lt_of_ge (least interval member))⟩
        · have later : next.first ≤ interval.first := by
            rcases List.mem_cons.mp member with rfl | member
            · exact le_refl _
            · exact behind interval member
          rw [starts] at later
          exact ⟨.inr ⟨interval, member, starts⟩,
            fun _ => lt_of_lt_of_le (lt_of_not_ge apart) later, others⟩
      · rintro ⟨begins, -, others⟩
        exact begins.imp_right fun begins => ⟨begins, others⟩

theorem begins_normalize : set.normalize.Begins first ↔ set.Begins first ∧
    ∀ interval ∈ set.intervals, interval.first < first → interval.last + 1 < first := by
  have row (interval : Interval) : interval ∈ set.intervals ↔
      interval ∈ set.intervals.toList.mergeSort Interval.ascends := by
    rw [(List.mergeSort_perm _ _).mem_iff, Array.mem_toList_iff]
  have ascends := sorted_ascends set.intervals.toList
  simp only [Begins, normalize, List.mem_toArray, row]
  revert ascends
  cases set.intervals.toList.mergeSort Interval.ascends with
  | nil => simp [joinAll]
  | cons current rest => exact begins_join

/-- Beyond the code space intervals keep their beginnings, unless one begins right behind
the last code point and is joined with that. -/
theorem begins_normalize_beyond (settled : set.Settled) (beyond : Rune.last < first)
    (begins : set.Begins first) :
    set.normalize.Begins first ∨ first = Rune.last + 1 ∧ set.Offers Rune.last := by
  by_cases reached : first = Rune.last + 1 ∧ set.Offers Rune.last
  · exact .inr reached
  · refine .inl (begins_normalize.mpr ⟨begins, fun interval member before => ?_⟩)
    have inside := (settled interval member).last_le
    by_contra reaches
    have touches : first = Rune.last + 1 := by
      unfold Rune at *
      omega
    refine reached ⟨touches, interval, member, Interval.contains_iff.mpr ?_⟩
    unfold Rune at *
    omega

/-! ## Built sets -/

variable {fold : Rune → Rune} {edits : List Edit} {edit : Edit}

def Edit.Begins (first : Rune) : Edit → Prop
  | push start _ | pushFolded start _ => start = first
  | normalize => False

theorem Edit.begins_apply (stays : ∀ rune ≤ Rune.last, fold rune ≤ Rune.last)
    (settled : set.Settled) (applied : edit.apply fold set = .ok after)
    (beyond : Rune.last < first) :
    (after.Begins first → set.Begins first ∨ edit.Begins first) ∧
      (set.Begins first ∨ edit.Begins first →
        after.Begins first ∨ first = Rune.last + 1 ∧ after.Offers Rune.last) := by
  have ordered := ordered_of_apply applied
  cases edit with
  | push start last =>
      obtain rfl := Except.ok.inj ((push_eq ordered).symm.trans applied)
      have begins : RuneSet.Begins ⟨set.intervals.push ⟨start, min last Rune.last⟩⟩ first ↔
          set.Begins first ∨ start = first := by
        simp only [RuneSet.Begins, Array.mem_push, or_and_right, exists_or, exists_eq_left]
      exact ⟨begins.mp, fun either => .inl (begins.mpr either)⟩
  | pushFolded start last =>
      obtain rfl := Except.ok.inj ((pushFolded_eq ordered).symm.trans applied)
      have inside (folded) (new : folded ∈ newFoldings fold start last) : folded ≠ first := by
        obtain ⟨origin, -, -, inside, -, rfl⟩ := mem_newFoldings.mp new
        exact ne_of_lt (lt_of_le_of_lt (stays origin inside) beyond)
      have begins : RuneSet.Begins ⟨set.intervals.push ⟨start, min last Rune.last⟩ ++
          ((newFoldings fold start last).map fun rune => ⟨rune, rune⟩).toArray⟩ first ↔
            set.Begins first ∨ start = first := by
        simp only [RuneSet.Begins, Array.mem_append, Array.mem_push, List.mem_toArray,
          List.mem_map, or_and_right, exists_or, exists_eq_left, exists_exists_and_eq_and]
        exact or_iff_left fun ⟨folded, new, same⟩ => inside folded new same
      exact ⟨begins.mp, fun either => .inl (begins.mpr either)⟩
  | normalize =>
      obtain rfl : set.normalize = after := Except.ok.inj applied
      refine ⟨fun begins => .inl (begins_normalize.mp begins).1, fun begins => ?_⟩
      rw [offers_normalize]
      exact begins_normalize_beyond settled beyond (begins.resolve_right id)

theorem begins_edited (stays : ∀ rune ≤ Rune.last, fold rune ≤ Rune.last)
    (built : edited fold edits = .ok set) (beyond : Rune.last < first) :
    (set.Begins first → ∃ edit ∈ edits, edit.Begins first) ∧
      ((∃ edit ∈ edits, edit.Begins first) →
        set.Begins first ∨ first = Rune.last + 1 ∧ set.Offers Rune.last) := by
  have both := edited_induction (motive := fun edits set => set.Settled ∧
    (set.Begins first → ∃ edit ∈ edits, edit.Begins first) ∧
      ((∃ edit ∈ edits, edit.Begins first) →
        set.Begins first ∨ first = Rune.last + 1 ∧ set.Offers Rune.last)) ?_ ?_ built
  · exact both.2
  · refine ⟨settled_empty, fun begins => ?_, fun begins => ?_⟩
    · simp [Begins, empty] at begins
    · simp at begins
  · intro edits edit set after given applied
    obtain ⟨settled, comes, goes⟩ := given
    obtain ⟨next, offers⟩ := Edit.settled_apply stays settled applied
    obtain ⟨back, ahead⟩ := Edit.begins_apply stays settled applied beyond
    refine ⟨next, fun begins => ?_, fun begins => ?_⟩
    · simp only [List.mem_append, List.mem_singleton, or_and_right, exists_or, exists_eq_left]
      exact (back begins).imp_left comes
    · simp only [List.mem_append, List.mem_singleton, or_and_right, exists_or,
        exists_eq_left] at begins
      rcases begins with begins | begins
      · rcases goes begins with begins | ⟨touches, reaches⟩
        · exact ahead (.inl begins)
        · exact .inr ⟨touches, (offers _).mpr (.inl reaches)⟩
      · exact ahead (.inr begins)

theorem canonical_normalize_iff (settled : set.Settled) :
    set.normalize.Canonical ↔ ∀ first, Rune.last < first → set.Begins first →
      first = Rune.last + 1 ∧ set.Offers Rune.last := by
  constructor
  · intro canonical first beyond begins
    refine (begins_normalize_beyond settled beyond begins).resolve_left ?_
    rintro ⟨interval, member, rfl⟩
    obtain ⟨ordered, inside⟩ := canonical.within interval member
    exact not_le_of_gt beyond (le_trans ordered inside)
  · intro within
    refine ⟨fun interval member => ?_, (apart_normalize set).imp fun apart => apart.2⟩
    have tidy := settled_normalize settled interval member
    refine ⟨?_, tidy.last_le⟩
    by_contra empty
    have cut := tidy.ordered.resolve_left empty
    rw [cut] at empty
    have beyond := lt_of_not_ge empty
    obtain ⟨begins, apart⟩ := begins_normalize.mp ⟨interval, member, rfl⟩
    obtain ⟨touches, held, here, holds⟩ := within _ beyond begins
    obtain ⟨low, high⟩ := Interval.contains_iff.mp holds
    have gap := apart held here (lt_of_le_of_lt low beyond)
    unfold Rune at *
    omega

/-- What edits have built is canonical once it is normalised, just if every range begins in
the code space, or right behind it when the last code point is named. In any case
the intervals of it that hold a rune are canonical, depend on the named code points only,
and are followed by none but empty intervals; and normalising again changes nothing. -/
theorem canonical_edited_iff (stays : ∀ rune ≤ Rune.last, fold rune ≤ Rune.last)
    (built : edited fold edits = .ok set) :
    (set.normalize.Canonical ↔ ∀ edit ∈ edits, ∀ first, Rune.last < first →
        edit.Begins first → first = Rune.last + 1 ∧ Described fold edits Rune.last) ∧
      set.normalize.populated.Canonical ∧
      (∃ strays : List Interval,
        set.normalize.intervals.toList = set.normalize.populated.intervals.toList ++ strays ∧
          ∀ stray ∈ strays, Rune.last < stray.first ∧ stray.last = Rune.last) ∧
      set.normalize.normalize = set.normalize ∧
      ∀ others other, edited fold others = .ok other →
        (∀ rune ≤ Rune.last, Described fold others rune ↔ Described fold edits rune) →
          other.normalize.populated = set.normalize.populated ∧
            (set.normalize.Canonical → other.normalize.Canonical →
              other.normalize = set.normalize) := by
  obtain ⟨settled, offers⟩ := settled_edited stays built
  refine ⟨?_, canonical_populated settled, normalize_eq_append settled,
    normalize_normalize settled, fun others other builds same => ?_⟩
  · rw [canonical_normalize_iff settled, offers]
    constructor
    · intro within edit member first beyond begins
      rcases (begins_edited stays built beyond).2 ⟨edit, member, begins⟩ with begins | joined
      · exact within first beyond begins
      · rwa [offers] at joined
    · intro within first beyond begins
      obtain ⟨edit, member, begins⟩ := (begins_edited stays built beyond).1 begins
      exact within edit member first beyond begins
  · obtain ⟨tidy, holds⟩ := settled_edited stays builds
    have alike (rune : Rune) : other.normalize.Offers rune ↔ set.normalize.Offers rune := by
      rw [offers_normalize, offers_normalize, offers, holds]
      by_cases inside : rune ≤ Rune.last
      · exact same rune inside
      · simp only [Described, inside, false_and]
    refine ⟨(canonical_populated tidy).eq_of_offers (canonical_populated settled)
      fun rune => ?_, fun canonical otherwise => otherwise.eq_of_offers canonical alike⟩
    rw [offers_populated, offers_populated, alike]

open scoped Repertoire in
/-- A range beyond the code space names nothing, but leaves an empty interval behind. -/
theorem strayRange_not_canonical :
    (∀ rune ≤ Rune.last, Rune.caseFold rune ≤ Rune.last) ∧
      ∃ set, edited Rune.caseFold [.push 0x110001 0x110002] = .ok set ∧
        ¬set.normalize.Canonical ∧ set.normalize.populated.Canonical ∧
        set.normalize.normalize = set.normalize := by
  have stays : ∀ rune ≤ Rune.last, Rune.caseFold rune ≤ Rune.last :=
    Rune.caseFold_le_last
  have ordered : ∀ edit ∈ [Edit.push 0x110001 0x110002], edit.Ordered := by
    simp [Edit.Ordered]
  obtain ⟨set, built⟩ := edited_returns_iff.mpr ordered
  obtain ⟨canonical, populated, -, again, -⟩ := canonical_edited_iff stays built
  refine ⟨stays, set, built, fun holds => ?_, populated, again⟩
  have begins : (Edit.push 0x110001 0x110002).Begins 0x110001 := rfl
  have touches := (canonical.mp holds _ List.mem_cons_self _ (by decide) begins).1
  exact absurd touches (by decide)

end RuneSet

end RegexMachine
