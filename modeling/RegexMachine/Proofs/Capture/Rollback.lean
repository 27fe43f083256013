import RegexMachine.Capture.Journal

/-! # Rolling the journal back

A journal extends another one if rolling it back to the height of that one
gives that one. Writes extend a journal, and so does everything made of
writes, so a save point brings back the registers as they were by remembering
nothing but a height. -/

namespace RegexMachine

/-! ## Registers -/

namespace Register

def Among (groups counters : Nat) : Register → Prop
  | groupStart group | groupEnd group => group < groups
  | count counter | origin counter => counter < counters

/-- The register is none of a group beyond so many, where the slots of the counters are. -/
def Fits (groups : Nat) : Register → Prop
  | groupStart group | groupEnd group => group < groups
  | count _ | origin _ => True

instance (groups : Nat) (register : Register) : Decidable (register.Fits groups) :=
  match register with
  | groupStart group | groupEnd group => inferInstanceAs (Decidable (group < groups))
  | count _ | origin _ => inferInstanceAs (Decidable True)

variable {groups counters : Nat} {register other : Register}

theorem fits_groupStart {group : Nat} (inside : group < groups) :
    (groupStart group).Fits groups := inside

theorem fits_groupEnd {group : Nat} (inside : group < groups) :
    (groupEnd group).Fits groups := inside

theorem fits_count (groups counter : Nat) : (count counter).Fits groups := trivial

theorem fits_origin (groups counter : Nat) : (origin counter).Fits groups := trivial

theorem Among.fits (among : register.Among groups counters) : register.Fits groups := by
  cases register with
  | groupStart | groupEnd => exact among
  | count | origin => trivial

theorem Among.slot_lt (among : register.Among groups counters) :
    register.slot groups < (groups + counters) * 2 := by
  cases register <;> simp only [Among] at among <;> simp only [slot] <;> omega

/-- No two registers share a slot: the two of a group and the two of a counter differ in
parity, and the counters lie behind the groups. -/
theorem slot_injective (fits : register.Fits groups) (others : other.Fits groups)
    (same : register.slot groups = other.slot groups) : register = other := by
  cases register <;> cases other <;> simp only [Fits, slot] at fits others same <;>
    first
      | omega
      | congr 1
        omega

theorem exists_slot_eq {position : Nat} (inside : position < (groups + counters) * 2) :
    ∃ register : Register, register.Among groups counters ∧ register.slot groups = position := by
  rcases Nat.lt_or_ge position (groups * 2) with front | back
  · rcases Nat.mod_two_eq_zero_or_one position with even | odd
    · refine ⟨.groupStart (position / 2), ?_, ?_⟩ <;> simp only [Among, slot] <;> omega
    · refine ⟨.groupEnd (position / 2), ?_, ?_⟩ <;> simp only [Among, slot] <;> omega
  · rcases Nat.mod_two_eq_zero_or_one position with even | odd
    · refine ⟨.count (position / 2 - groups), ?_, ?_⟩ <;> simp only [Among, slot] <;> omega
    · refine ⟨.origin (position / 2 - groups), ?_, ?_⟩ <;> simp only [Among, slot] <;> omega

end Register

namespace Registers

structure Sized (registers : Registers) (groupCount counterCount : Nat) : Prop where
  groups_eq : registers.groups = groupCount
  size_eq : registers.slots.size = (groupCount + counterCount) * 2

section

variable {registers : Registers} {groups counters : Nat} {register other : Register}

theorem sized_ofSize (groups counters : Nat) : (ofSize groups counters).Sized groups counters :=
  ⟨rfl, Array.size_replicate⟩

theorem Sized.counters_eq (sized : registers.Sized groups counters) :
    registers.counters = counters := by
  rw [Registers.counters, sized.groups_eq, sized.size_eq]
  omega

theorem sized_set (slot : Nat) (content : Option Nat) :
    (registers.set slot content).Sized groups counters ↔ registers.Sized groups counters := by
  constructor <;> exact fun sized => ⟨sized.groups_eq, by simpa [set] using sized.size_eq⟩

theorem sized_write (register : Register) (content : Option Nat) :
    (registers.write register content).Sized groups counters ↔
      registers.Sized groups counters :=
  sized_set _ _

theorem read_ofSize (groups counters : Nat) (register : Register) :
    (ofSize groups counters).read register = none := by
  simp only [read, get, ofSize, Array.getElem?_replicate]
  split <;> rfl

theorem get_set_same {slot : Nat} (inside : slot < registers.slots.size) (content : Option Nat) :
    (registers.set slot content).get slot = content := by
  simp [get, set, inside]

theorem get_set_other {slot place : Nat} (apart : slot ≠ place) (registers : Registers)
    (content : Option Nat) : (registers.set slot content).get place = registers.get place := by
  rw [get, set, Array.getElem?_setIfInBounds_ne apart, get]

theorem set_set_get (registers : Registers) (slot : Nat) (content : Option Nat) :
    (registers.set slot content).set slot (registers.get slot) = registers := by
  have restored : registers.slots.setIfInBounds slot (registers.get slot) =
      registers.slots := by
    apply Array.ext
    · exact Array.size_setIfInBounds
    · intro position _ inside
      rw [Array.getElem_setIfInBounds]
      split
      · next here =>
          subst here
          rw [get, Array.getElem?_eq_getElem inside]
          rfl
      · rfl
  rw [set, set, Array.setIfInBounds_setIfInBounds, restored]

theorem read_write_same (sized : registers.Sized groups counters)
    (among : register.Among groups counters) (content : Option Nat) :
    (registers.write register content).read register = content := by
  have inside : register.slot registers.groups < registers.slots.size := by
    rw [sized.groups_eq, sized.size_eq]
    exact among.slot_lt
  exact get_set_same inside content

theorem read_write_other (fits : register.Fits registers.groups)
    (others : other.Fits registers.groups) (different : register ≠ other)
    (content : Option Nat) :
    (registers.write register content).read other = registers.read other :=
  get_set_other (fun same => different (Register.slot_injective fits others same)) _ _

theorem read_write (sized : registers.Sized groups counters)
    (among : register.Among groups counters) (others : other.Fits groups)
    (content : Option Nat) :
    (registers.write register content).read other =
      if other = register then content else registers.read other := by
  split
  · next same =>
      subst same
      exact read_write_same sized among content
  · next different =>
      have fits := among.fits
      rw [← sized.groups_eq] at fits others
      exact read_write_other fits others (Ne.symm different) content

end

end Registers

/-! ## Taking changes back -/

namespace Change

theorem takeBack_add (first second : Nat) (changes : List Change)
    (registers : Registers) :
    takeBack (first + second) changes registers =
      takeBack second (takeBack first changes registers).1
        (takeBack first changes registers).2 := by
  induction first generalizing changes registers with
  | zero => rw [Nat.zero_add]; rfl
  | succ first induction =>
      rw [Nat.succ_add]
      cases changes with
      | nil => cases second <;> rfl
      | cons change older => exact induction older _

theorem groups_takeBack (count : Nat) (changes : List Change) (registers : Registers) :
    (takeBack count changes registers).2.groups = registers.groups := by
  induction count generalizing changes registers with
  | zero => rfl
  | succ count induction =>
      cases changes with
      | nil => rfl
      | cons change older => exact induction older _

theorem sized_takeBack {groups counters : Nat} (count : Nat) (changes : List Change)
    (registers : Registers) :
    (takeBack count changes registers).2.Sized groups counters ↔
      registers.Sized groups counters := by
  induction count generalizing changes registers with
  | zero => rfl
  | succ count induction =>
      cases changes with
      | nil => rfl
      | cons change older =>
          exact (induction older _).trans (Registers.sized_set _ _)

end Change

/-! ## Journals -/

namespace Journal

theorem eq_of_parts {left right : Journal} (registers : left.registers = right.registers)
    (changes : left.changes = right.changes) : left = right := by
  rcases left with ⟨_, _, height, height_eq⟩
  rcases right with ⟨_, _, _, other_eq⟩
  cases registers
  cases changes
  cases height_eq
  cases other_eq
  rfl

theorem rollBack_of_height_le (journal : Journal) {height : Nat}
    (above : journal.height ≤ height) : journal.rollBack height = journal := by
  have nothing : journal.height - height = 0 := by omega
  apply eq_of_parts <;> simp only [rollBack, nothing, Change.takeBack]

theorem rollBack_rollBack (journal : Journal) {high low : Nat} (ordered : low ≤ high) :
    (journal.rollBack high).rollBack low = journal.rollBack low := by
  by_cases below : high ≤ journal.height
  · have parts : journal.height - low = journal.height - high + (high - low) := by omega
    have left : min high journal.height - low = high - low := by omega
    apply eq_of_parts <;> simp only [rollBack, left, parts, Change.takeBack_add]
  · rw [journal.rollBack_of_height_le (by omega)]

theorem groups_rollBack (journal : Journal) (height : Nat) :
    (journal.rollBack height).groups = journal.groups :=
  Change.groups_takeBack _ _ _

theorem rollBack_height (journal : Journal) (height : Nat) :
    (journal.rollBack height).height = min height journal.height := rfl

def Extends (newer older : Journal) : Prop :=
  newer.rollBack older.height = older

namespace Extends

theorem refl (journal : Journal) : journal.Extends journal :=
  journal.rollBack_of_height_le (Nat.le_refl _)

theorem height_le {newer older : Journal} (extension : newer.Extends older) :
    older.height ≤ newer.height := by
  have height := congrArg Journal.height extension
  rw [rollBack_height] at height
  omega

theorem trans {newest newer older : Journal} (upper : newest.Extends newer)
    (lower : newer.Extends older) : newest.Extends older := by
  unfold Extends at upper lower ⊢
  calc
    newest.rollBack older.height =
        (newest.rollBack newer.height).rollBack older.height :=
      (newest.rollBack_rollBack (height_le lower)).symm
    _ = newer.rollBack older.height := by rw [upper]
    _ = older := lower

theorem write (journal : Journal) (register : Register) (content : Option Nat) :
    (journal.write register content).Extends journal := by
  have one : journal.height + 1 - journal.height = 1 := by omega
  apply eq_of_parts
  · simp only [rollBack, Journal.write, one, Change.takeBack]
    exact journal.registers.set_set_get _ content
  · simp only [rollBack, Journal.write, one, Change.takeBack]

theorem rollBack {newer older : Journal} (extension : newer.Extends older)
    {height : Nat} (above : older.height ≤ height) :
    (newer.rollBack height).Extends older :=
  (newer.rollBack_rollBack above).trans extension

end Extends

/-! ## Sizes -/

def Sized (journal : Journal) (groups counters : Nat) : Prop :=
  journal.registers.Sized groups counters

theorem sized_reset (journal : Journal) (groups counters : Nat) :
    (journal.reset groups counters).Sized groups counters :=
  Registers.sized_ofSize groups counters

theorem sized_rollBack {groups counters : Nat} (journal : Journal) (height : Nat) :
    (journal.rollBack height).Sized groups counters ↔ journal.Sized groups counters :=
  Change.sized_takeBack _ _ _

theorem sized_write {groups counters : Nat} (journal : Journal) (register : Register)
    (content : Option Nat) :
    (journal.write register content).Sized groups counters ↔
      journal.Sized groups counters :=
  Registers.sized_write register content

theorem Extends.sized {newer older : Journal} (extension : newer.Extends older)
    {groups counters : Nat} :
    newer.Sized groups counters ↔ older.Sized groups counters := by
  rw [← newer.sized_rollBack older.height, extension]

namespace Sized

variable {journal : Journal} {groupCount counterCount : Nat}

theorem groups_eq (sized : journal.Sized groupCount counterCount) :
    journal.groups = groupCount := Registers.Sized.groups_eq sized

theorem counters_eq (sized : journal.Sized groupCount counterCount) :
    journal.counters = counterCount :=
  Registers.Sized.counters_eq sized

end Sized

/-! ## Registers by name -/

/-- What the journal holds under the name of a register: nothing for a group beyond its own. -/
def held (journal : Journal) (register : Register) : Option Nat :=
  if register.Fits journal.groups then journal.registers.read register else none

theorem held_of_fits (journal : Journal) (register : Register)
    (fits : register.Fits journal.groups) :
    journal.held register = journal.registers.read register := if_pos fits

theorem held_of_not_fits (journal : Journal) (register : Register)
    (outside : ¬register.Fits journal.groups) : journal.held register = none := if_neg outside

theorem held_write_other {journal : Journal} {register other : Register}
    (fits : register.Fits journal.groups) (apart : register ≠ other) (content : Option Nat) :
    (journal.write register content).held other = journal.held other :=
  ite_congr rfl (fun others => Registers.read_write_other fits others apart content) fun _ => rfl

theorem held_write {journal : Journal} {groups counters : Nat}
    (sized : journal.Sized groups counters) {register : Register}
    (among : register.Among groups counters) (content : Option Nat) (other : Register) :
    (journal.write register content).held other =
      if other = register then content else journal.held other := by
  have fits : register.Fits journal.groups := sized.groups_eq ▸ among.fits
  split
  · next same =>
      subst same
      exact (if_pos fits).trans (Registers.read_write_same sized among content)
  · next different => exact held_write_other fits (Ne.symm different) content

theorem held_reset (journal : Journal) (groups counters : Nat) (register : Register) :
    (journal.reset groups counters).held register = none := by
  rw [held, reset, Registers.read_ofSize]
  split <;> rfl

/-! ## Registers that stay -/

/-- The register holds what it does in the older journal, and so it does however far the newer
one is rolled back towards it. -/
def Steady (newer older : Journal) (register : Register) : Prop :=
  ∀ height, older.height ≤ height →
    (newer.rollBack height).held register = older.held register

namespace Steady

variable {newer older : Journal} {register : Register}

theorem refl (journal : Journal) (register : Register) : journal.Steady journal register := by
  intro height above
  rw [journal.rollBack_of_height_le above]

theorem held_eq (steady : newer.Steady older register) (extension : newer.Extends older) :
    newer.held register = older.held register := by
  have now := steady newer.height extension.height_le
  rwa [newer.rollBack_of_height_le (Nat.le_refl _)] at now

theorem rollBack (steady : newer.Steady older register) (height : Nat)
    (above : older.height ≤ height) : (newer.rollBack height).Steady older register := by
  intro other enough
  rcases Nat.le_total other height with lower | higher
  · rw [newer.rollBack_rollBack lower]
    exact steady other enough
  · have reached : (newer.rollBack height).height ≤ other :=
      Nat.le_trans (Nat.min_le_left _ _) higher
    rw [(newer.rollBack height).rollBack_of_height_le reached]
    exact steady height above

theorem write (steady : newer.Steady older register) (extension : newer.Extends older)
    {other : Register} (fits : other.Fits newer.groups) (different : other ≠ register)
    (content : Option Nat) :
    (newer.write other content).Steady older register := by
  intro height above
  rcases Nat.lt_or_ge newer.height height with beyond | within
  · rw [(newer.write other content).rollBack_of_height_le beyond]
    exact (held_write_other fits different content).trans (steady.held_eq extension)
  · have undone : (newer.write other content).rollBack newer.height = newer :=
      Extends.write newer other content
    rw [← (newer.write other content).rollBack_rollBack within, undone]
    exact steady height above

end Steady

end Journal

end RegexMachine
