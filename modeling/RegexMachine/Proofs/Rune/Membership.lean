import RegexMachine.Proofs.Rune.Sets
import RegexMachine.Rune.Repertoire

/-! # Sets built by edits

A set is built from the empty one by pushing ranges, with their foldings or without, and
by normalising at any time. A built set that is normalised contains the code points that
its edits name, whatever lies beyond the code space in their ranges. -/

namespace RegexMachine

namespace RuneSet

inductive Edit where
  | push (first last : Rune)
  /-- Push a range with the foldings of its runes. -/
  | pushFolded (first last : Rune)
  | normalize
deriving DecidableEq, Repr

namespace Edit

def apply (fold : Rune → Rune) (set : RuneSet) : Edit → Except Fault RuneSet
  | push first last => set.push first last
  | pushFolded first last => set.pushFolded first last fold
  | normalize => .ok set.normalize

def Ordered : Edit → Prop
  | push first last | pushFolded first last => first ≤ last
  | normalize => True

/-- The rune lies in the range of the edit, or a code point of a range that is pushed
with its foldings folds to it. -/
def Names (fold : Rune → Rune) (rune : Rune) : Edit → Prop
  | push first last => first ≤ rune ∧ rune ≤ last
  | pushFolded first last => (first ≤ rune ∧ rune ≤ last) ∨
      ∃ member, first ≤ member ∧ member ≤ last ∧ member ≤ Rune.last ∧ fold member = rune
  | normalize => False

end Edit

def edited (fold : Rune → Rune) (edits : List Edit) : Except Fault RuneSet :=
  edits.foldlM (Edit.apply fold) empty

variable {fold : Rune → Rune} {edits : List Edit} {edit : Edit} {set after : RuneSet}
  {rune : Rune}

/-! ## One edit -/

namespace Edit

theorem apply_returns (fold : Rune → Rune) (set : RuneSet) (ordered : edit.Ordered) :
    ∃ after, edit.apply fold set = .ok after := by
  cases edit with
  | push first last => exact ⟨_, push_eq ordered⟩
  | pushFolded first last => exact ⟨_, pushFolded_eq ordered⟩
  | normalize => exact ⟨_, rfl⟩

theorem ordered_of_apply (applied : edit.apply fold set = .ok after) : edit.Ordered := by
  have turnedDown {first last : Rune} (disordered : ¬first ≤ last) :
      set.push first last = .error .characterRange := if_pos (lt_of_not_ge disordered)
  cases edit with
  | push first last =>
      by_contra disordered
      rw [apply, turnedDown disordered] at applied
      cases applied
  | pushFolded first last =>
      by_contra disordered
      rw [apply, RuneSet.pushFolded, turnedDown disordered] at applied
      cases applied
  | normalize => trivial

theorem settled_apply (stays : ∀ rune ≤ Rune.last, fold rune ≤ Rune.last)
    (settled : set.Settled) (applied : edit.apply fold set = .ok after) :
    after.Settled ∧ ∀ rune, after.Offers rune ↔
      set.Offers rune ∨ rune ≤ Rune.last ∧ edit.Names fold rune := by
  have ordered := ordered_of_apply applied
  cases edit with
  | push first last =>
      obtain ⟨pushed, push, settled, offers⟩ := push_of_ordered settled ordered
      obtain rfl : pushed = after := Except.ok.inj (push.symm.trans applied)
      refine ⟨settled, fun rune => ?_⟩
      rw [offers, Names, and_comm (b := _ ∧ rune ≤ last), and_assoc]
  | pushFolded first last =>
      obtain ⟨pushed, push, settled, offers⟩ := pushFolded_of_ordered stays settled ordered
      obtain rfl : pushed = after := Except.ok.inj (push.symm.trans applied)
      refine ⟨settled, fun rune => ?_⟩
      rw [offers, Names]
      refine or_congr_right ⟨?_, ?_⟩
      · rintro (⟨low, high, inside⟩ | ⟨member, low, high, inside, -, rfl⟩)
        · exact ⟨inside, .inl ⟨low, high⟩⟩
        · exact ⟨stays member inside, .inr ⟨member, low, high, inside, rfl⟩⟩
      · rintro ⟨inside, ⟨low, high⟩ | ⟨member, low, high, within, folds⟩⟩
        · exact .inl ⟨low, high, inside⟩
        · by_cases same : fold member = member
          · rw [← folds, same]
            exact .inl ⟨low, high, within⟩
          · exact .inr ⟨member, low, high, within, same, folds⟩
  | normalize =>
      obtain rfl : set.normalize = after := Except.ok.inj applied
      refine ⟨settled_normalize settled, fun rune => ?_⟩
      simp only [offers_normalize, Names, and_false, or_false]

end Edit

/-! ## All edits -/

theorem edited_induction {motive : List Edit → RuneSet → Prop} (start : motive [] empty)
    (step : ∀ edits edit set after, motive edits set → edit.apply fold set = .ok after →
      motive (edits ++ [edit]) after)
    (built : edited fold edits = .ok set) : motive edits set := by
  have run (rest front : List Edit) (middle : RuneSet) (given : motive front middle)
      (goes : rest.foldlM (Edit.apply fold) middle = .ok set) : motive (front ++ rest) set := by
    induction rest generalizing front middle with
    | nil =>
        obtain rfl : middle = set := Except.ok.inj goes
        rwa [List.append_nil]
    | cons edit rest induction =>
        rw [List.foldlM_cons] at goes
        cases applied : edit.apply fold middle with
        | error fault =>
            rw [applied] at goes
            cases goes
        | ok next =>
            rw [applied] at goes
            have later := induction (front ++ [edit]) next (step _ _ _ _ given applied) goes
            rwa [List.append_assoc] at later
  exact run edits [] empty start built

theorem edited_returns_iff :
    (∃ set, edited fold edits = .ok set) ↔ ∀ edit ∈ edits, edit.Ordered := by
  constructor
  · rintro ⟨set, built⟩
    refine edited_induction (motive := fun edits _ => ∀ edit ∈ edits, edit.Ordered) ?_ ?_ built
    · exact fun _ member => nomatch member
    · intro edits edit set after ordered applied other member
      rcases List.mem_append.mp member with member | member
      · exact ordered other member
      · rw [List.mem_singleton.mp member]
        exact Edit.ordered_of_apply applied
  · rw [edited]
    generalize empty = set
    intro ordered
    induction edits generalizing set with
    | nil => exact ⟨set, rfl⟩
    | cons edit rest induction =>
        rw [List.forall_mem_cons] at ordered
        obtain ⟨next, applied⟩ := Edit.apply_returns fold set ordered.1
        rw [List.foldlM_cons, applied]
        exact induction next ordered.2

def Described (fold : Rune → Rune) (edits : List Edit) (rune : Rune) : Prop :=
  rune ≤ Rune.last ∧ ∃ edit ∈ edits, edit.Names fold rune

theorem settled_edited (stays : ∀ rune ≤ Rune.last, fold rune ≤ Rune.last)
    (built : edited fold edits = .ok set) :
    set.Settled ∧ ∀ rune, set.Offers rune ↔ Described fold edits rune := by
  refine edited_induction (motive := fun edits set =>
    set.Settled ∧ ∀ rune, set.Offers rune ↔ Described fold edits rune) ?_ ?_ built
  · exact ⟨settled_empty, fun rune => by simp [offers_empty, Described]⟩
  · intro edits edit set after given applied
    obtain ⟨settled, offers⟩ := Edit.settled_apply stays given.1 applied
    refine ⟨settled, fun rune => ?_⟩
    rw [offers, given.2, Described, Described, ← and_or_left]
    simp only [List.mem_append, List.mem_singleton, or_and_right, exists_or, exists_eq_left]

/-- Building a set returns just if every range is ordered, and when what has been built
is normalised, it contains exactly the code points that the edits name. -/
theorem contains_edited_iff (stays : ∀ rune ≤ Rune.last, fold rune ≤ Rune.last)
    (edits : List Edit) :
    ((∃ set, edited fold edits = .ok set) ↔ ∀ edit ∈ edits, edit.Ordered) ∧
      ∀ set, edited fold edits = .ok set → ∀ rune,
        set.normalize.contains rune = true ↔
          rune ≤ Rune.last ∧ ∃ edit ∈ edits, edit.Names fold rune := by
  refine ⟨edited_returns_iff, fun set built rune => ?_⟩
  obtain ⟨settled, offers⟩ := settled_edited stays built
  rw [contains_normalize settled]
  exact offers rune

open scoped Repertoire in
theorem kelvinSign_contained :
    (∀ rune ≤ Rune.last, Rune.caseFold rune ≤ Rune.last) ∧
      ∃ set, edited Rune.caseFold [.push 0x61 0x63, .normalize, .pushFolded 0x212A 0x212A,
          .push 0x110005 0x110010] = .ok set ∧
        set.normalize.contains 0x6B = true ∧ set.normalize.contains 0x110007 = false := by
  have stays : ∀ rune ≤ Rune.last, Rune.caseFold rune ≤ Rune.last :=
    Rune.caseFold_le_last
  obtain ⟨returns, exactly⟩ := contains_edited_iff stays [.push 0x61 0x63, .normalize,
    .pushFolded 0x212A 0x212A, .push 0x110005 0x110010]
  obtain ⟨set, built⟩ := returns.mpr (by simp [Edit.Ordered])
  refine ⟨stays, set, built, (exactly set built 0x6B).mpr ⟨by decide, ?_⟩, ?_⟩
  · have folds : Rune.caseFold 0x212A = 0x6B := by decide +kernel
    exact ⟨.pushFolded 0x212A 0x212A, by simp,
      .inr ⟨0x212A, by decide, by decide, by decide, folds⟩⟩
  · rw [Bool.eq_false_iff]
    intro contained
    exact absurd ((exactly set built 0x110007).mp contained).1 (by decide)

end RuneSet

end RegexMachine
