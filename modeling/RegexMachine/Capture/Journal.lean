import RegexMachine.Capture.Table

/-! # Capture journal

The registers of the capture groups and of the repetition counters, with a
journal of what each write has replaced. Rolling the journal back to an
earlier height brings back the registers as they were at that height. A
register that was never written is empty. -/

namespace RegexMachine

inductive Register where
  | groupStart (group : Nat)
  | groupEnd (group : Nat)
  | count (counter : Nat)
  | origin (counter : Nat)
deriving DecidableEq, Repr

namespace Register

/-- Where the register lies in a row that begins with so many groups. -/
def slot (groups : Nat) : Register → Nat
  | groupStart group => group * 2
  | groupEnd group => group * 2 + 1
  | count counter => groups * 2 + counter * 2
  | origin counter => groups * 2 + counter * 2 + 1

end Register

/-- The contents of all registers in one row: two slots for each group and,
behind them, two for each counter. -/
structure Registers where
  groups : Nat
  slots : Array (Option Nat)
deriving DecidableEq, Repr

namespace Registers

def ofSize (groups counters : Nat) : Registers :=
  ⟨groups, Array.replicate ((groups + counters) * 2) none⟩

def counters (registers : Registers) : Nat :=
  registers.slots.size / 2 - registers.groups

def get (registers : Registers) (slot : Nat) : Option Nat :=
  registers.slots[slot]?.join

def set (registers : Registers) (slot : Nat) (content : Option Nat) : Registers :=
  { registers with slots := registers.slots.setIfInBounds slot content }

def read (registers : Registers) (register : Register) : Option Nat :=
  registers.get (register.slot registers.groups)

def write (registers : Registers) (register : Register) (content : Option Nat) :
    Registers :=
  registers.set (register.slot registers.groups) content

end Registers

/-- A write, remembered by the slot and the content that it replaced there. -/
structure Change where
  slot : Nat
  replaced : Option Nat
deriving DecidableEq, Repr

namespace Change

def takeBack : Nat → List Change → Registers → List Change × Registers
  | 0, changes, registers => (changes, registers)
  | _ + 1, [], registers => ([], registers)
  | count + 1, change :: older, registers =>
      takeBack count older (registers.set change.slot change.replaced)

theorem takeBack_length (count : Nat) (changes : List Change)
    (registers : Registers) :
    (takeBack count changes registers).1.length = changes.length - count := by
  induction count generalizing changes registers with
  | zero => rfl
  | succ count induction =>
      cases changes with
      | nil => simp [takeBack]
      | cons change older =>
          simp only [takeBack, List.length_cons]
          rw [induction]
          omega

end Change

structure Journal where
  registers : Registers
  changes : List Change
  /-- The number of changes, kept so that it need not be counted. -/
  height : Nat
  height_eq : height = changes.length := by rfl
deriving DecidableEq, Repr

namespace Journal

def new (groups counters : Nat) : Journal where
  registers := .ofSize groups counters
  changes := []
  height := 0

instance : Inhabited Journal := ⟨new 0 0⟩

def reset (journal : Journal) (groups counters : Nat) : Journal :=
  { journal with
    registers := .ofSize groups counters
    changes := []
    height := 0
    height_eq := rfl }

def groups (journal : Journal) : Nat := journal.registers.groups

def counters (journal : Journal) : Nat := journal.registers.counters

def write (journal : Journal) (register : Register) (content : Option Nat) :
    Journal :=
  let replaced := journal.registers.read register
  { registers := journal.registers.write register content
    changes := ⟨register.slot journal.groups, replaced⟩ :: journal.changes
    height := journal.height + 1
    height_eq := by simp [journal.height_eq] }

def rollBack (journal : Journal) (height : Nat) : Journal :=
  let rest :=
    Change.takeBack (journal.height - height) journal.changes journal.registers
  { registers := rest.2
    changes := rest.1
    height := min height journal.height
    height_eq := by
      have := journal.height_eq
      simp only [rest, Change.takeBack_length]
      omega }

def setStart (journal : Journal) (group : Nat) (position : Option Nat) :
    Journal :=
  journal.write (.groupStart group) position

def setEnd (journal : Journal) (group : Nat) (position : Option Nat) :
    Journal :=
  journal.write (.groupEnd group) position

def startCounter (journal : Journal) (counter : Nat) : Journal :=
  (journal.write (.count counter) (some 0)).write (.origin counter) none

def setCount (journal : Journal) (counter : Nat) (count : Option Nat) :
    Journal :=
  journal.write (.count counter) count

def setOrigin (journal : Journal) (counter : Nat) (position : Option Nat) :
    Journal :=
  journal.write (.origin counter) position

def count (journal : Journal) (counter : Nat) : Option Nat :=
  journal.registers.read (.count counter)

def origin (journal : Journal) (counter : Nat) : Option Nat :=
  journal.registers.read (.origin counter)

/-- What a group has captured: both of its ends have to be set and in order. -/
def spanOf (journal : Journal) (group : Nat) : Option Span :=
  match journal.registers.read (.groupStart group),
      journal.registers.read (.groupEnd group) with
  | some first, some last => if first ≤ last then some ⟨first, last⟩ else none
  | _, _ => none

/-- The table of all groups, with the given ends for the whole match. It needs
a group to put them in. -/
def toTable (journal : Journal) (first last : Nat) : Except Fault CaptureTable :=
  let captures := (Array.range journal.groups).map journal.spanOf
  (CaptureTable.mk captures).assign 0 (some ⟨first, last⟩)

end Journal

end RegexMachine
