import RegexMachine.Proofs.Text.Cuts

/-! # Both ways of reading a range

The units of a range that ends at a cut are the units up to the cut before it and
the one that looking back finds. So looking back again and again meets the units
that reading forward meets, and both leave no gap and no overlap. -/

namespace RegexMachine

namespace TextUnit

/-- The units lie side by side from the first position to the last. -/
def Tiles (first last : Nat) : List TextUnit → Prop
  | [] => first = last
  | unit :: units => unit.first = first ∧ first < unit.last ∧ Tiles unit.last last units

variable {first last : Nat} {units : List TextUnit}

theorem Tiles.ordered (tiles : Tiles first last units) : first ≤ last := by
  induction units generalizing first with
  | nil => exact Nat.le_of_eq tiles
  | cons unit units induction =>
      rcases tiles with ⟨-, before, others⟩
      exact Nat.le_trans (Nat.le_of_lt before) (induction others)

theorem Tiles.bounds (tiles : Tiles first last units) {unit : TextUnit} (member : unit ∈ units) :
    first ≤ unit.first ∧ unit.last ≤ last := by
  induction units generalizing first with
  | nil => cases member
  | cons head units induction =>
      rcases tiles with ⟨rfl, before, others⟩
      rcases List.mem_cons.mp member with rfl | behind
      · exact ⟨Nat.le_refl _, others.ordered⟩
      · have := induction others behind
        omega

theorem Tiles.existsUnique (tiles : Tiles first last units) {position : Nat}
    (behind : first ≤ position) (inside : position < last) :
    ∃! unit, unit ∈ units ∧ unit.first ≤ position ∧ position < unit.last := by
  induction units generalizing first with
  | nil =>
      rw [Tiles] at tiles
      omega
  | cons head units induction =>
      rcases tiles with ⟨rfl, before, others⟩
      by_cases here : position < head.last
      · refine ⟨head, ⟨List.mem_cons_self, behind, here⟩, fun unit holds => ?_⟩
        rcases holds with ⟨member, starts, -⟩
        rcases List.mem_cons.mp member with same | later
        · exact same
        · have := (others.bounds later).1
          omega
      · rcases induction others (by omega) with ⟨unit, ⟨member, holds⟩, unique⟩
        refine ⟨unit, ⟨List.mem_cons_of_mem _ member, holds⟩, fun other otherHolds => ?_⟩
        rcases otherHolds with ⟨otherMember, starts, ends⟩
        rcases List.mem_cons.mp otherMember with rfl | later
        · omega
        · exact unique other ⟨later, starts, ends⟩

end TextUnit

namespace Octets

open TextUnit (Tiles)

variable {text : Octets} {first last position : Nat}

theorem units_cons (text : Octets) (nonempty : first < last) :
    text.units first last =
      text.unitFrom first last :: text.units (text.unitFrom first last).last last := by
  rw [units, if_pos nonempty]

theorem units_of_empty (text : Octets) (first : Nat) : text.units first first = [] := by
  rw [units, if_neg (Nat.lt_irrefl first)]

theorem tiles_units (text : Octets) (ordered : first ≤ last) :
    Tiles first last (text.units first last) := by
  fun_induction units text first last with
  | case1 first nonempty induction =>
      have onward := text.lt_unitFrom_last nonempty
      exact ⟨unitFrom_first text first last, onward, induction (text.unitFrom_last_le nonempty)⟩
  | case2 first ended => exact Nat.le_antisymm ordered (Nat.not_lt.mp ended)

theorem units_append (cut : text.IsCut first last position) :
    text.units first last = text.units first position ++ text.units position last := by
  have within := cut.le_last
  obtain ⟨-, path⟩ := cut
  induction path using Relation.ReflTransGen.head_induction_on with
  | refl => rw [units_of_empty, List.nil_append]
  | head step path induction =>
      obtain ⟨inside, rfl⟩ := step
      have ends := le_of_cutsAfter path
      have onward := text.lt_unitFrom_last inside
      have same := unitFrom_eq_of_last_le (by omega) within ends
      rw [units_cons text inside, units_cons text (onward.trans_le ends), same, induction,
        List.cons_append]

/-- The last unit of a range is the one that looking back finds. -/
theorem units_concat (text : Octets) (nonempty : first < last) :
    text.units first last =
      text.units first (text.unitBefore first last).first ++ [text.unitBefore first last] := by
  have whole : text.IsCut first last last := isCut_last (Nat.le_of_lt nonempty)
  obtain ⟨before, cut, inside, ends⟩ := whole.previous nonempty
  have found := unitBefore_unitFrom cut inside
  rw [← ends] at found
  rw [units_append cut, units_cons text inside, ← ends, units_of_empty, found, unitFrom_first]

theorem unitsBackward_reverse (text : Octets) (first last : Nat) :
    text.unitsBackward first last = (text.units first last).reverse := by
  fun_induction unitsBackward text first last with
  | case1 last nonempty induction =>
      rw [units_concat text nonempty, List.reverse_concat, induction]
  | case2 last ended =>
      rw [units, if_neg ended]
      rfl

/-- Reading backward undoes reading forward, whatever the octets: looking back from
the end of a range finds the last of its units, looking back again and again
finds all of them in the opposite order, and they lie side by side. -/
theorem unitsBackward_undoes_units (text : Octets) (nonempty : first < last) :
    (text.units first last).getLast? = some (text.unitBefore first last) ∧
      text.unitsBackward first last = (text.units first last).reverse ∧
      Tiles first last (text.units first last) ∧
      Tiles first last (text.unitsBackward first last).reverse ∧
      ∀ position, first ≤ position → position < last →
        (∃! unit, unit ∈ text.units first last ∧
          unit.first ≤ position ∧ position < unit.last) ∧
        ∃! unit, unit ∈ text.unitsBackward first last ∧
          unit.first ≤ position ∧ position < unit.last := by
  have tiles := tiles_units text (Nat.le_of_lt nonempty)
  have reversed := unitsBackward_reverse text first last
  refine ⟨?_, reversed, tiles, ?_, fun position behind inside => ?_⟩
  · rw [units_concat text nonempty, List.getLast?_concat]
  · rw [reversed, List.reverse_reverse]
    exact tiles
  · simp only [reversed, List.mem_reverse]
    exact ⟨tiles.existsUnique behind inside, tiles.existsUnique behind inside⟩

theorem illFormed_undone :
    let text : Octets := #[0xE2, 0x82, 0xE2, 0x82, 0xAC, 0xED, 0xA0, 0x80, 0x80]
    0 < 9 ∧ text.unitsBackward 0 9 = (text.units 0 9).reverse ∧
      (text.units 0 9).getLast? = some ⟨Rune.replacement, 8, 9⟩ :=
  ⟨by decide, (unitsBackward_undoes_units _ (by decide)).2.1,
    (unitsBackward_undoes_units _ (by decide)).1.trans (by decide +kernel)⟩

end Octets

end RegexMachine
