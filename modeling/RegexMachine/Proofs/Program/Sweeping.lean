import RegexMachine.Proofs.Program.Depths

/-! # Sweeping until nothing changes

Whether the analysis of depths goes on is decided by a note: a sweep notes whether one of
its visits has lowered an entry, and the one in which none has is the last. Entries are
only ever lowered, so the note says whether the tables have improved, and that cannot go
on for ever. -/

namespace RegexMachine

namespace SaveDepths

variable {next depths : SaveDepths}

theorem Below.improves_eq (below : next.Below depths) :
    next.improves depths = (next != depths) := by
  cases improved : next.improves depths with
  | false =>
      rw [below.eq_of_not_improves improved]
      exact (bne_self_eq_false depths).symm
  | true =>
      symm
      rw [bne_iff_ne]
      intro same
      subst same
      simp [improves] at improved

end SaveDepths

namespace Program

open SaveDepths

variable {program : Program} {resumed : Array Bool} {depths : SaveDepths}

/-- Visit an instruction, and note whether this visit or an earlier one has lowered an
entry. -/
def visitNoting (program : Program) (resumed : Array Bool) (noted : SaveDepths × Bool)
    (address : Nat) : Except Rejection (SaveDepths × Bool) :=
  (program.visit resumed noted.1 address).map fun next => (next, noted.2 || next != noted.1)

def sweepNoting (program : Program) (resumed : Array Bool) (depths : SaveDepths) :
    Except Rejection (SaveDepths × Bool) :=
  (List.range program.instructions.size).foldlM (program.visitNoting resumed) (depths, false)

def settleWithin (program : Program) (resumed : Array Bool) :
    Nat → SaveDepths → Option (Except Rejection SaveDepths)
  | 0, _ => none
  | sweeps + 1, depths =>
      match program.sweepNoting resumed depths with
      | .error rejection => some (.error rejection)
      | .ok (next, changed) =>
          if changed then program.settleWithin resumed sweeps next else some (.ok next)

/-- If a change undid another one, the note would say more than the tables. -/
private theorem foldlM_visitNoting (addresses : List Nat) (depths : SaveDepths) (changed : Bool) :
    addresses.foldlM (program.visitNoting resumed) (depths, changed) =
      (addresses.foldlM (program.visit resumed) depths).map fun next =>
        (next, changed || next != depths) := by
  induction addresses generalizing depths changed with
  | nil =>
      rw [List.foldlM_nil, List.foldlM_nil]
      change Except.ok (depths, changed) = Except.ok (depths, changed || depths != depths)
      rw [bne_self_eq_false, Bool.or_false]
  | cons address rest induction =>
      rw [List.foldlM_cons, List.foldlM_cons, visitNoting]
      cases visited : program.visit resumed depths address with
      | error rejection => rfl
      | ok middle =>
          change rest.foldlM (program.visitNoting resumed) (middle, changed || middle != depths) =
            (rest.foldlM (program.visit resumed) middle).map _
          rw [induction]
          cases swept : rest.foldlM (program.visit resumed) middle with
          | error rejection => rfl
          | ok next =>
              have first := visit_below visited
              have later := foldlM_visit_below swept
              have noted : (middle != depths || next != middle) = (next != depths) := by
                rw [Bool.eq_iff_iff, Bool.or_eq_true, bne_iff_ne, bne_iff_ne, bne_iff_ne]
                constructor
                · intro moved same
                  subst same
                  have middle_eq := first.antisymm later
                  rcases moved with moved | moved
                  · exact moved middle_eq
                  · exact moved middle_eq.symm
                · intro moved
                  by_cases same : middle = depths
                  · exact .inr (same ▸ moved)
                  · exact .inl same
              change Except.ok (next, changed || middle != depths || next != middle) = _
              rw [Bool.or_assoc, noted]
              rfl

theorem sweepNoting_eq (depths : SaveDepths) :
    program.sweepNoting resumed depths =
      (program.sweep resumed depths).map fun next => (next, next.improves depths) := by
  rw [sweepNoting, foldlM_visitNoting]
  cases swept : program.sweep resumed depths with
  | error rejection =>
      rw [sweep] at swept
      rw [swept]
      rfl
  | ok next =>
      have below := sweep_below swept
      rw [sweep] at swept
      rw [swept]
      change Except.ok (next, false || next != depths) = Except.ok (next, next.improves depths)
      rw [Bool.false_or, below.improves_eq]

/-- Finitely many sweeps do, and more of them change nothing. -/
theorem exists_settleWithin (depths : SaveDepths) :
    ∃ sweeps, ∀ more, sweeps ≤ more →
      program.settleWithin resumed more depths = some (program.settle resumed depths) := by
  fun_induction settle program resumed depths with
  | case1 depths rejection stopped =>
      refine ⟨1, fun more enough => ?_⟩
      obtain ⟨more, rfl⟩ : ∃ rest, more = rest + 1 := ⟨more - 1, by omega⟩
      rw [settleWithin, sweepNoting_eq, stopped]
      rfl
  | case2 depths next swept improved induction =>
      obtain ⟨sweeps, settles⟩ := induction
      refine ⟨sweeps + 1, fun more enough => ?_⟩
      obtain ⟨more, rfl⟩ : ∃ rest, more = rest + 1 := ⟨more - 1, by omega⟩
      rw [settleWithin, sweepNoting_eq, swept, ← settles more (by omega)]
      exact if_pos improved
  | case3 depths next swept same =>
      refine ⟨1, fun more enough => ?_⟩
      obtain ⟨more, rfl⟩ : ∃ rest, more = rest + 1 := ⟨more - 1, by omega⟩
      rw [settleWithin, sweepNoting_eq, swept]
      exact if_neg same

end Program

end RegexMachine
