/-! # Bisection

Where a test holds of a front part of a row and of nothing behind it, bisection finds
the place at which the front part ends. -/

namespace RegexMachine

variable {α : Type} {row : Array α} {test : α → Bool}

/-- Bisect the `length` entries from `first` on for the first of them that fails the
test. -/
def bisect (row : Array α) (test : α → Bool) (first length : Nat) : Nat :=
  if length = 0 then first
  else
    let half := length / 2
    if row[first + half]?.any test then
      bisect row test (first + half + 1) (length - half - 1)
    else
      bisect row test first half
termination_by length

def frontLength (row : Array α) (test : α → Bool) : Nat :=
  bisect row test 0 row.size

/-- The test holds of what lies below one place, and of nothing from another one on. -/
structure Separates (row : Array α) (test : α → Bool) (low high : Nat) : Prop where
  below : ∀ index entry, row[index]? = some entry → index < low → test entry = true
  above : ∀ index entry, row[index]? = some entry → high ≤ index → test entry = false

namespace Separates

variable {low high index : Nat} {entry : α}

theorem le_of_fails (separates : Separates row test low high) (here : row[index]? = some entry)
    (fails : test entry = false) : low ≤ index :=
  Nat.le_of_not_lt fun below => by
    rw [separates.below index entry here below] at fails
    cases fails

theorem lt_of_holds (separates : Separates row test low high) (here : row[index]? = some entry)
    (holds : test entry = true) : index < high :=
  Nat.lt_of_not_le fun above => by
    rw [separates.above index entry here above] at holds
    cases holds

end Separates

def HoldsInFront (row : Array α) (test : α → Bool) : Prop :=
  ∀ (index other : Nat) (entry later : α), row[index]? = some entry →
    row[other]? = some later → index ≤ other → test later = true → test entry = true

theorem separates_bisect (front : HoldsInFront row test) {first length : Nat}
    (separates : Separates row test first (first + length)) :
    Separates row test (bisect row test first length) (bisect row test first length) := by
  fun_induction bisect row test first length with
  | case1 first => exact separates
  | case2 first length nonempty half holds induction =>
      obtain ⟨middle, found, holds⟩ := (Option.any_eq_true _ _).mp holds
      have upper : first + half + 1 + (length - half - 1) = first + length := by omega
      rw [upper] at induction
      exact induction ⟨fun index entry here low =>
        front index _ entry middle here found (by omega) holds, separates.above⟩
  | case3 first length nonempty half fails induction =>
      refine induction ⟨separates.below, fun index entry here high => ?_⟩
      obtain ⟨inside, -⟩ := Array.getElem?_eq_some_iff.mp here
      have found := Array.getElem?_eq_getElem (Nat.lt_of_le_of_lt high inside)
      rw [found, Option.any_some] at fails
      exact Bool.eq_false_iff.mpr fun holds =>
        fails (front _ index _ entry found here high holds)

theorem bisect_le (row : Array α) (test : α → Bool) (first length : Nat) :
    bisect row test first length ≤ first + length := by
  fun_induction bisect row test first length with
  | case1 => exact Nat.le_add_right _ _
  | case2 => omega
  | case3 => omega

theorem frontLength_le_size (row : Array α) (test : α → Bool) :
    frontLength row test ≤ row.size :=
  Nat.le_trans (bisect_le row test 0 row.size) (Nat.le_of_eq (Nat.zero_add _))

theorem separates_frontLength (front : HoldsInFront row test) :
    Separates row test (frontLength row test) (frontLength row test) := by
  refine separates_bisect front ⟨fun _ _ _ low => absurd low (Nat.not_lt_zero _),
    fun index entry here high => ?_⟩
  rw [Array.getElem?_eq_none (by omega)] at here
  cases here

end RegexMachine
