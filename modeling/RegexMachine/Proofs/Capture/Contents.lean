import RegexMachine.Proofs.Capture.Rollback

/-! # What registers may hold

A property of everything that is ever written to the registers holds of what
they hold now and of what rolling back can bring back. -/

namespace RegexMachine

namespace Registers

variable {registers : Registers} {register other : Register} {content : Option Nat} {value : Nat}

theorem read_set_eq_some {slot : Nat}
    (found : (registers.set slot content).read register = some value) :
    register.slot registers.groups = slot ∧ content = some value ∨
      registers.read register = some value := by
  by_cases same : register.slot registers.groups = slot
  · subst same
    refine .inl ⟨rfl, ?_⟩
    simp only [read, set, get, Array.getElem?_setIfInBounds_self] at found
    split at found
    · exact found
    · cases found
  · exact .inr ((get_set_other (Ne.symm same) registers content).symm.trans found)

end Registers

namespace Journal

/-- The property holds of every register, and of every replaced content for the register
whose slot is named with it. -/
structure Holds (journal : Journal) (property : Register → Nat → Prop) : Prop where
  registers : ∀ register : Register, register.Fits journal.groups →
    ∀ value, journal.registers.read register = some value → property register value
  changes : ∀ change ∈ journal.changes, ∀ register : Register,
    register.Fits journal.groups → register.slot journal.groups = change.slot →
      ∀ value, change.replaced = some value → property register value

namespace Holds

variable {journal : Journal} {property : Register → Nat → Prop}

theorem reset (journal : Journal) (groups counters : Nat) :
    (journal.reset groups counters).Holds property where
  registers register _ value found := by
    rw [Journal.reset, Registers.read_ofSize] at found
    cases found
  changes _ member := nomatch member

theorem write (holds : journal.Holds property) {register : Register}
    (fits : register.Fits journal.groups) {content : Option Nat}
    (admits : ∀ value, content = some value → property register value) :
    (journal.write register content).Holds property where
  registers other others value found := by
    rcases Registers.read_set_eq_some found with ⟨same, written⟩ | kept
    · rw [Register.slot_injective others fits same]
      exact admits value written
    · exact holds.registers other others value kept
  changes change member other others same value replaced := by
    rcases List.mem_cons.mp member with rfl | older
    · rw [Register.slot_injective others fits same]
      exact holds.registers register fits value replaced
    · exact holds.changes change older other others same value replaced

private theorem takeBack (count : Nat) {changes : List Change} {registers : Registers}
    (current : ∀ register : Register, register.Fits registers.groups →
      ∀ value, registers.read register = some value → property register value)
    (replaced : ∀ change ∈ changes, ∀ register : Register,
      register.Fits registers.groups → register.slot registers.groups = change.slot →
        ∀ value, change.replaced = some value → property register value) :
    let rest := Change.takeBack count changes registers
    (∀ register : Register, register.Fits rest.2.groups →
      ∀ value, rest.2.read register = some value → property register value) ∧
      ∀ change ∈ rest.1, ∀ register : Register,
        register.Fits rest.2.groups → register.slot rest.2.groups = change.slot →
          ∀ value, change.replaced = some value → property register value := by
  induction count generalizing changes registers with
  | zero => exact ⟨current, replaced⟩
  | succ count induction =>
      cases changes with
      | nil => exact ⟨current, replaced⟩
      | cons change older =>
          refine induction ?_ fun other member => replaced other (List.mem_cons_of_mem _ member)
          intro register fits value found
          rcases Registers.read_set_eq_some found with ⟨same, written⟩ | kept
          · exact replaced change List.mem_cons_self register fits same value written
          · exact current register fits value kept

theorem rollBack (holds : journal.Holds property) (height : Nat) :
    (journal.rollBack height).Holds property :=
  have both := takeBack (journal.height - height) holds.registers holds.changes
  ⟨both.1, both.2⟩

end Holds

theorem spanOf_eq_some_iff {journal : Journal} {group : Nat} {span : Span} :
    journal.spanOf group = some span ↔
      journal.registers.read (.groupStart group) = some span.first ∧
        journal.registers.read (.groupEnd group) = some span.last ∧
          span.first ≤ span.last := by
  constructor
  · intro captured
    unfold spanOf at captured
    split at captured
    · next first last starts ends =>
        split at captured
        · next ordered =>
            cases captured
            exact ⟨starts, ends, ordered⟩
        · cases captured
    · cases captured
  · rintro ⟨starts, ends, ordered⟩
    simp only [spanOf, starts, ends, ordered, if_true]

end Journal

end RegexMachine
