import Mathlib.Data.List.Forall2
import RegexMachine.Proofs.Program.Validity

/-! # Settled depths

Every visit of an instruction lowers the depths, so once a sweep improves
nothing it has changed nothing, and neither has any of its visits. What is
settled therefore bounds the depths along every step from an instruction to
the ones after it. -/

namespace RegexMachine

namespace SaveDepths

/-! ## Entries -/

def Lowers (next known : Option Nat) : Prop :=
  ∀ bound, known = some bound → ∃ least, next = some least ∧ least ≤ bound

namespace Lowers

theorem refl (known : Option Nat) : Lowers known known :=
  fun bound found => ⟨bound, found, Nat.le_refl bound⟩

theorem trans {last next known : Option Nat} (second : Lowers last next)
    (first : Lowers next known) : Lowers last known := by
  intro bound found
  rcases first bound found with ⟨middle, between, ordered⟩
  rcases second middle between with ⟨least, final, below⟩
  exact ⟨least, final, Nat.le_trans below ordered⟩

theorem min (known : Option Nat) (bound : Nat) :
    Lowers (some (known.elim bound (Nat.min bound))) known := by
  intro other same
  subst same
  exact ⟨Nat.min bound other, rfl, Nat.min_le_right bound other⟩

end Lowers

section Entries

variable {next known : List (Option Nat)}

private theorem lowers_refl (known : List (Option Nat)) :
    List.Forall₂ Lowers known known :=
  List.forall₂_same.mpr fun entry _ => .refl entry

private theorem count_none_some (entry : Nat) (rest : List (Option Nat)) :
    (some entry :: rest).count none = rest.count none :=
  List.count_cons_of_ne (Option.some_ne_none entry)

/-- Lowering some entries leaves no more of them absent and, if as many are,
no greater sum, and the same number and sum only if it changes nothing. -/
private theorem settled_of_sums (lowered : List.Forall₂ Lowers next known) :
    next.count none ≤ known.count none ∧
      (next.count none = known.count none →
        sumOf next ≤ sumOf known ∧ (sumOf next = sumOf known → next = known)) := by
  induction lowered with
  | nil => simp
  | @cons after before later earlier lower _ induction =>
      rcases induction with ⟨counts, sums⟩
      cases before with
      | none =>
          cases after with
          | none =>
              simp only [List.count_cons_self, sumOf, Option.getD_none, List.cons.injEq, true_and]
              refine ⟨by omega, fun same => ?_⟩
              rcases sums (by omega) with ⟨smaller, equal⟩
              exact ⟨by omega, fun total => equal (by omega)⟩
          | some least =>
              rw [List.count_cons_self, count_none_some]
              exact ⟨by omega, fun same => by omega⟩
      | some bound =>
          rcases lower bound rfl with ⟨least, rfl, ordered⟩
          simp only [count_none_some, sumOf, Option.getD_some, List.cons.injEq, Option.some.injEq]
          refine ⟨counts, fun same => ?_⟩
          rcases sums same with ⟨smaller, equal⟩
          refine ⟨by omega, fun total => ⟨by omega, equal (by omega)⟩⟩

private theorem lowers_modify {change : Option Nat → Option Nat}
    (lower : ∀ entry, Lowers (change entry) entry) (known : List (Option Nat))
    (index : Nat) : List.Forall₂ Lowers (known.modify index change) known := by
  induction known generalizing index with
  | nil => simp
  | cons entry rest induction =>
      cases index with
      | zero => exact .cons (lower entry) (lowers_refl rest)
      | succ index => exact .cons (.refl entry) (induction index)

end Entries

/-! ## Tables -/

def Admits (table : Array (Option Nat)) (address bound : Nat) : Prop :=
  ∃ least, table[address]?.join = some least ∧ least ≤ bound

theorem Admits.weaken {table : Array (Option Nat)} {address bound other : Nat}
    (admits : Admits table address bound) (ordered : bound ≤ other) :
    Admits table address other := by
  rcases admits with ⟨least, found, below⟩
  exact ⟨least, found, Nat.le_trans below ordered⟩

theorem admits_lowerEntry {table : Array (Option Nat)} {address : Nat}
    (inside : address < table.size) (bound : Nat) :
    Admits (lowerEntry table address bound) address bound := by
  simp only [Admits, lowerEntry, Array.getElem?_modify, if_true,
    Array.getElem?_eq_getElem inside, Option.map_some, Option.join_some,
    Option.some.injEq, exists_eq_left']
  cases table[address] with
  | none => exact Nat.le_refl bound
  | some known => exact Nat.min_le_left bound known

structure Below (next depths : SaveDepths) : Prop where
  depth : List.Forall₂ Lowers next.depth.toList depths.depth.toList
  marker : List.Forall₂ Lowers next.marker.toList depths.marker.toList

namespace Below

variable {last next depths : SaveDepths}

theorem refl (depths : SaveDepths) : depths.Below depths :=
  ⟨lowers_refl _, lowers_refl _⟩

private theorem lowers_trans {last next known : List (Option Nat)}
    (second : List.Forall₂ Lowers last next) (first : List.Forall₂ Lowers next known) :
    List.Forall₂ Lowers last known := by
  induction second generalizing known with
  | nil => exact first
  | cons lower _ induction =>
      cases first with
      | cons earlier rest => exact .cons (lower.trans earlier) (induction rest)

theorem trans (second : last.Below next) (first : next.Below depths) :
    last.Below depths :=
  ⟨lowers_trans second.depth first.depth, lowers_trans second.marker first.marker⟩

theorem entries (below : next.Below depths) :
    List.Forall₂ Lowers next.entries depths.entries :=
  List.rel_append below.depth below.marker

theorem eq_of_not_improves (below : next.Below depths)
    (same : next.improves depths = false) : next = depths := by
  rcases settled_of_sums below.entries with ⟨counts, sums⟩
  simp only [improves, absent, total, Bool.or_eq_false_iff, Bool.and_eq_false_imp,
    beq_iff_eq] at same
  have absences : next.entries.count none = depths.entries.count none :=
    Nat.le_antisymm counts (Nat.le_of_not_lt (of_decide_eq_false same.1))
  rcases sums absences with ⟨smaller, equal⟩
  have totals := Nat.le_of_not_lt (of_decide_eq_false (same.2 absences))
  have entries := equal (Nat.le_antisymm smaller totals)
  rcases List.append_inj entries below.depth.length_eq with ⟨depth, marker⟩
  rcases next with ⟨nextDepth, nextMarker⟩
  rcases depths with ⟨otherDepth, otherMarker⟩
  simp only [Array.toList_inj] at depth marker
  rw [depth, marker]

theorem antisymm (first : next.Below depths) (second : depths.Below next) :
    next = depths := by
  apply first.eq_of_not_improves
  have forth := settled_of_sums first.entries
  have back := settled_of_sums second.entries
  have counts : next.entries.count none = depths.entries.count none :=
    Nat.le_antisymm forth.1 back.1
  have sums := Nat.le_antisymm (forth.2 counts).1 (back.2 counts.symm).1
  simp [improves, absent, total, counts, sums]

private theorem getElem?_lowers {next known : Array (Option Nat)}
    (lowered : List.Forall₂ Lowers next.toList known.toList) {address bound : Nat}
    (admits : Admits known address bound) : Admits next address bound := by
  rcases admits with ⟨least, found, ordered⟩
  rw [Option.join_eq_some_iff] at found
  rcases Array.getElem?_eq_some_iff.mp found with ⟨inside, here⟩
  have sizes : next.size = known.size := by simpa using lowered.length_eq
  rcases lowered.get (i := address) (by simpa [sizes] using inside) (by simpa using inside)
      least (by simpa using here) with
    ⟨other, entry, below⟩
  refine ⟨other, ?_, Nat.le_trans below ordered⟩
  rw [Array.getElem?_eq_getElem (by omega), Option.join_some]
  simpa using entry

theorem admits (below : next.Below depths) {address bound : Nat}
    (admits : Admits depths.depth address bound) : Admits next.depth address bound :=
  getElem?_lowers below.depth admits

theorem reach (depths : SaveDepths) (address bound : Nat) :
    (depths.reach address bound).Below depths where
  depth := by
    rw [SaveDepths.reach, lowerEntry, Array.toList_modify]
    exact lowers_modify (fun entry => .min entry bound) _ _
  marker := lowers_refl _

theorem mark (depths : SaveDepths) (address bound : Nat) :
    (depths.mark address bound).Below depths where
  depth := lowers_refl _
  marker := by
    rw [SaveDepths.mark, lowerEntry, Array.toList_modify]
    exact lowers_modify (fun entry => .min entry bound) _ _

end Below

end SaveDepths

namespace Program

open SaveDepths

variable {program : Program} {resumed : Array Bool} {depths next : SaveDepths}

/-! ## Sweeps -/

theorem transfer_below {address depth : Nat} {instruction : Instruction}
    (passes : program.transfer resumed address depth instruction depths = .ok next) :
    next.Below depths := by
  cases instruction <;> simp only [transfer] at passes
  case branch target =>
    cases passes
    split
    · exact (Below.reach _ _ _).trans (.reach _ _ _)
    · exact .refl depths
  case save target =>
    cases passes
    split
    · exact (Below.mark _ _ _).trans ((Below.reach _ _ _).trans (.reach _ _ _))
    · exact .refl depths
  case clear =>
    split at passes
    · cases passes
    · cases passes
      exact .reach _ _ _
  case clearThrough target keep =>
    split at passes
    · split at passes
      · cases passes
        split
        · exact .reach _ _ _
        · exact .refl depths
      · cases passes
    · cases passes
  case quantify greed min max counter exit =>
    cases passes
    split
    · exact (Below.reach _ _ _).trans (.reach _ _ _)
    · exact .refl depths
  case jump target =>
    cases passes
    split
    · exact .reach _ _ _
    · exact .refl depths
  case repeatEnd counter head =>
    cases passes
    split
    · exact .reach _ _ _
    · exact .refl depths
  case fail => cases passes; exact .refl depths
  case accept => cases passes; exact .refl depths
  all_goals
    cases passes
    exact .reach _ _ _

theorem visit_below {address : Nat}
    (passes : program.visit resumed depths address = .ok next) : next.Below depths := by
  unfold visit at passes
  split at passes
  · exact transfer_below passes
  · cases passes
    exact .refl depths

theorem foldlM_visit_below {addresses : List Nat}
    (passes : addresses.foldlM (program.visit resumed) depths = .ok next) :
    next.Below depths := by
  induction addresses generalizing depths with
  | nil =>
      cases passes
      exact .refl _
  | cons address rest induction =>
      rw [List.foldlM_cons] at passes
      cases visited : program.visit resumed depths address with
      | error rejection =>
          rw [visited] at passes
          cases passes
      | ok middle =>
          rw [visited] at passes
          exact (induction passes).trans (visit_below visited)

private theorem visit_fixed {addresses : List Nat}
    (fixed : addresses.foldlM (program.visit resumed) depths = .ok depths) :
    ∀ address ∈ addresses, program.visit resumed depths address = .ok depths := by
  induction addresses with
  | nil => simp
  | cons address rest induction =>
      rw [List.foldlM_cons] at fixed
      cases visited : program.visit resumed depths address with
      | error rejection =>
          rw [visited] at fixed
          cases fixed
      | ok middle =>
          rw [visited] at fixed
          have same : middle = depths :=
            (visit_below visited).antisymm (foldlM_visit_below fixed)
          rw [same] at visited fixed
          exact List.forall_mem_cons.mpr ⟨visited, induction fixed⟩

theorem sweep_below (swept : program.sweep resumed depths = .ok next) :
    next.Below depths :=
  foldlM_visit_below swept

theorem settle_fixed (settled : program.settle resumed depths = .ok next) :
    next.Below depths ∧ program.sweep resumed next = .ok next := by
  fun_induction settle program resumed depths with
  | case1 depths rejection stopped => cases settled
  | case2 depths later swept improved induction =>
      rcases induction settled with ⟨below, fixed⟩
      exact ⟨below.trans (sweep_below swept), fixed⟩
  | case3 depths later swept same =>
      cases settled
      have unchanged : next = depths :=
        (sweep_below swept).eq_of_not_improves (by simpa using same)
      rw [unchanged] at swept ⊢
      exact ⟨.refl depths, swept⟩

/-! ## What the settled depths say -/

/-- The depths admit the empty stack at the beginning, and no instruction has
more to say about them. -/
structure Settled (program : Program) (depths : SaveDepths) : Prop where
  depthSize : depths.depth.size = program.instructions.size
  markerSize : depths.marker.size = program.instructions.size
  start : Admits depths.depth 0 0
  visits : ∀ address < program.instructions.size,
    program.visit program.resumePoints depths address = .ok depths

theorem settled_of_saveDepths (found : program.saveDepths = .ok depths)
    (nonempty : 0 < program.instructions.size) : program.Settled depths := by
  rcases settle_fixed found with ⟨below, fixed⟩
  have depthSize := below.depth.length_eq
  have markerSize := below.marker.length_eq
  simp only [SaveDepths.initial, Array.length_toList, Array.size_setIfInBounds,
    Array.size_replicate] at depthSize markerSize
  refine ⟨depthSize, markerSize, below.admits ?_, fun address inside => ?_⟩
  · exact ⟨0, by simp [SaveDepths.initial, nonempty], Nat.le_refl 0⟩
  · exact visit_fixed fixed address (List.mem_range.mpr inside)

end Program

end RegexMachine
