import Mathlib.Logic.Function.Basic
import RegexMachine.Proofs.Capture.Rollback

/-! # Versions of the registers

A journal keeps the registers as they are now and what each write has replaced. That is as
good as keeping, for every height below its own, all registers as they were at that height:
a write adds a version, and rolling back returns to one. -/

namespace RegexMachine

structure Version where
  starts : Nat → Option Nat
  ends : Nat → Option Nat
  counts : Nat → Option Nat
  origins : Nat → Option Nat

namespace Version

def blank : Version where
  starts _ := none
  ends _ := none
  counts _ := none
  origins _ := none

def read (version : Version) : Register → Option Nat
  | .groupStart group => version.starts group
  | .groupEnd group => version.ends group
  | .count counter => version.counts counter
  | .origin counter => version.origins counter

def write (version : Version) (content : Option Nat) : Register → Version
  | .groupStart group =>
      { version with starts := Function.update version.starts group content }
  | .groupEnd group => { version with ends := Function.update version.ends group content }
  | .count counter =>
      { version with counts := Function.update version.counts counter content }
  | .origin counter =>
      { version with origins := Function.update version.origins counter content }

def capture (version : Version) (group : Nat) : Option Span := do
  let first ← version.starts group
  let last ← version.ends group
  if first ≤ last then some ⟨first, last⟩ else none

def table (version : Version) (groups first last : Nat) : Except Fault CaptureTable :=
  if groups = 0 then .error .outsideTable
  else .ok ⟨Array.ofFn fun group : Fin groups =>
    if group.val = 0 then some ⟨first, last⟩ else version.capture group⟩

/-- The entries of the maps side by side, those of the groups before those of the counters. -/
def row (version : Version) (groups counters : Nat) : List (Option Nat) :=
  ((List.range groups).flatMap fun group => [version.starts group, version.ends group]) ++
    (List.range counters).flatMap fun counter =>
      [version.counts counter, version.origins counter]

theorem read_blank (register : Register) : blank.read register = none := by
  cases register <;> rfl

private theorem length_pairs (left right : Nat → Option Nat) (count : Nat) :
    ((List.range count).flatMap fun index => [left index, right index]).length =
      count * 2 := by
  induction count with
  | zero => rfl
  | succ count induction =>
      rw [List.range_succ, List.flatMap_append, List.length_append, induction]
      simp only [List.flatMap_singleton, List.length_cons, List.length_nil]
      omega

private theorem getElem?_pairs (left right : Nat → Option Nat) {count index : Nat}
    (below : index < count) :
    let pairs := (List.range count).flatMap fun index => [left index, right index]
    pairs[index * 2]? = some (left index) ∧ pairs[index * 2 + 1]? = some (right index) := by
  induction count with
  | zero => cases below
  | succ count induction =>
      have length := length_pairs left right count
      simp only [List.range_succ, List.flatMap_append, List.flatMap_singleton]
      rcases Nat.lt_succ_iff_lt_or_eq.mp below with earlier | rfl
      · rw [List.getElem?_append_left (by omega), List.getElem?_append_left (by omega)]
        exact induction earlier
      · rw [List.getElem?_append_right (by omega), List.getElem?_append_right (by omega), length]
        simp

theorem length_row (version : Version) (groups counters : Nat) :
    (version.row groups counters).length = (groups + counters) * 2 := by
  rw [row, List.length_append, length_pairs, length_pairs]
  omega

theorem getElem?_row (version : Version) {groups counters : Nat} {register : Register}
    (among : register.Among groups counters) :
    (version.row groups counters)[register.slot groups]? = some (version.read register) := by
  have front := length_pairs version.starts version.ends groups
  cases register with
  | groupStart group =>
      have inside : group < groups := among
      have found := getElem?_pairs version.starts version.ends inside
      rw [row, Register.slot, List.getElem?_append_left (by omega)]
      exact found.1
  | groupEnd group =>
      have inside : group < groups := among
      have found := getElem?_pairs version.starts version.ends inside
      rw [row, Register.slot, List.getElem?_append_left (by omega)]
      exact found.2
  | count counter =>
      have found := getElem?_pairs version.counts version.origins among
      rw [row, Register.slot, List.getElem?_append_right (by omega), front, Nat.add_sub_cancel_left]
      exact found.1
  | origin counter =>
      have found := getElem?_pairs version.counts version.origins among
      rw [row, Register.slot, List.getElem?_append_right (by omega), front, Nat.add_assoc,
        Nat.add_sub_cancel_left]
      exact found.2

theorem read_write (version : Version) (content : Option Nat) (register other : Register) :
    (version.write content register).read other =
      if other = register then content else version.read other := by
  cases register <;> cases other <;>
    simp [write, read, Function.update_apply]

end Version

/-- The version of now, and those of all heights up to the one before it. -/
structure Versions where
  newest : Version
  earlier : List Version

namespace Versions

def initial : Versions := ⟨.blank, []⟩

def height (versions : Versions) : Nat := versions.earlier.length

def write (versions : Versions) (register : Register) (content : Option Nat) : Versions where
  newest := versions.newest.write content register
  earlier := versions.earlier ++ [versions.newest]

def returnTo (versions : Versions) (height : Nat) : Versions :=
  match versions.earlier[height]? with
  | some version => ⟨version, versions.earlier.take height⟩
  | none => versions

end Versions

/-! ## Edits -/

inductive Journal.Edit where
  | setStart (group : Nat) (position : Option Nat)
  | setEnd (group : Nat) (position : Option Nat)
  | startCounter (counter : Nat)
  | setCount (counter : Nat) (count : Option Nat)
  | setOrigin (counter : Nat) (position : Option Nat)
  | rollBack (height : Nat)

namespace Journal.Edit

def Among (groups counters : Nat) : Edit → Prop
  | setStart group _ | setEnd group _ => group < groups
  | startCounter counter | setCount counter _ | setOrigin counter _ => counter < counters
  | rollBack _ => True

def apply (journal : Journal) : Edit → Journal
  | setStart group position => journal.setStart group position
  | setEnd group position => journal.setEnd group position
  | startCounter counter => journal.startCounter counter
  | setCount counter count => journal.setCount counter count
  | setOrigin counter position => journal.setOrigin counter position
  | rollBack height => journal.rollBack height

/-- What the edit does to the versions. To start a counter adds two of them. -/
def applyVersions (versions : Versions) : Edit → Versions
  | setStart group position => versions.write (.groupStart group) position
  | setEnd group position => versions.write (.groupEnd group) position
  | startCounter counter =>
      (versions.write (.count counter) (some 0)).write (.origin counter) none
  | setCount counter count => versions.write (.count counter) count
  | setOrigin counter position => versions.write (.origin counter) position
  | rollBack height => versions.returnTo height

end Journal.Edit

/-! ## Journals and versions -/

namespace Journal

def ReadsAs (journal : Journal) (version : Version) : Prop :=
  ∀ register : Register, register.Fits journal.groups →
    journal.registers.read register = version.read register

/-- The journal reads as the newest version, and rolled back to an earlier height as the
version of that height. -/
structure Mirrors (journal : Journal) (versions : Versions) : Prop where
  height : journal.height = versions.height
  newest : journal.ReadsAs versions.newest
  earlier : ∀ (height : Nat) version, versions.earlier[height]? = some version →
    (journal.rollBack height).ReadsAs version

namespace Mirrors

variable {journal : Journal} {versions : Versions} {groups counters : Nat}

theorem reset (journal : Journal) (groups counters : Nat) :
    (journal.reset groups counters).Mirrors .initial where
  height := rfl
  newest register _ := by
    rw [Journal.reset, Registers.read_ofSize, Versions.initial, Version.read_blank]
  earlier _ _ found := by cases found

theorem write (mirrors : journal.Mirrors versions) (sized : journal.Sized groups counters)
    (register : Register) (among : register.Among groups counters) (content : Option Nat) :
    (journal.write register content).Mirrors (versions.write register content) where
  height := by
    have lengths := mirrors.height
    simp only [Versions.height] at lengths
    simp only [Journal.write, Versions.write, Versions.height, List.length_append,
      List.length_singleton, lengths]
  newest other others := by
    have kept : other.Fits journal.groups := others
    have fits : other.Fits groups := sized.groups_eq ▸ kept
    simp only [Journal.write, Versions.write]
    rw [Registers.read_write sized among fits, Version.read_write, mirrors.newest other kept]
  earlier height version found := by
    -- Below its height, the journal is rolled back as if nothing had been written.
    have undone : (journal.write register content).rollBack journal.height = journal :=
      Extends.write journal register content
    have lengths : journal.height = versions.earlier.length := mirrors.height
    rw [Versions.write, List.getElem?_append] at found
    split at found
    · next below =>
        have lower : height ≤ journal.height := by omega
        rw [← (journal.write register content).rollBack_rollBack lower, undone]
        exact mirrors.earlier height version found
    · next above =>
        rw [List.getElem?_singleton] at found
        split at found
        · next here =>
            cases found
            obtain rfl : height = journal.height := by omega
            rw [undone]
            exact mirrors.newest
        · cases found

theorem rollBack (mirrors : journal.Mirrors versions) (height : Nat) :
    (journal.rollBack height).Mirrors (versions.returnTo height) := by
  have lengths : journal.height = versions.earlier.length := mirrors.height
  rw [Versions.returnTo]
  split
  · next version found =>
      have below : height < versions.earlier.length :=
        (List.getElem?_eq_some_iff.mp found).1
      refine ⟨?_, mirrors.earlier height version found, fun lower older read => ?_⟩
      · rw [rollBack_height, Versions.height, List.length_take, lengths]
      · rw [List.getElem?_take] at read
        split at read
        · next lower_lt =>
            rw [journal.rollBack_rollBack (Nat.le_of_lt lower_lt)]
            exact mirrors.earlier lower older read
        · cases read
  · next missing =>
      rw [List.getElem?_eq_none_iff] at missing
      rw [journal.rollBack_of_height_le (by omega)]
      exact mirrors

theorem apply (mirrors : journal.Mirrors versions) (sized : journal.Sized groups counters)
    {edit : Edit} (among : edit.Among groups counters) :
    (edit.apply journal).Mirrors (edit.applyVersions versions) ∧
      (edit.apply journal).Sized groups counters := by
  cases edit with
  | setStart group position =>
      exact ⟨mirrors.write sized (.groupStart group) among position,
        (journal.sized_write _ _).mpr sized⟩
  | setEnd group position =>
      exact ⟨mirrors.write sized (.groupEnd group) among position,
        (journal.sized_write _ _).mpr sized⟩
  | startCounter counter =>
      have counted := mirrors.write sized (.count counter) among (some 0)
      have still := (journal.sized_write (.count counter) (some 0)).mpr sized
      exact ⟨counted.write still (.origin counter) among none,
        (Journal.sized_write _ _ _).mpr still⟩
  | setCount counter count =>
      exact ⟨mirrors.write sized (.count counter) among count,
        (journal.sized_write _ _).mpr sized⟩
  | setOrigin counter position =>
      exact ⟨mirrors.write sized (.origin counter) among position,
        (journal.sized_write _ _).mpr sized⟩
  | rollBack height => exact ⟨mirrors.rollBack height, (journal.sized_rollBack height).mpr sized⟩

theorem edited {edits : List Edit} (mirrors : journal.Mirrors versions)
    (sized : journal.Sized groups counters)
    (among : ∀ edit ∈ edits, edit.Among groups counters) :
    (edits.foldl Edit.apply journal).Mirrors (edits.foldl Edit.applyVersions versions) ∧
      (edits.foldl Edit.apply journal).Sized groups counters := by
  induction edits generalizing journal versions with
  | nil => exact ⟨mirrors, sized⟩
  | cons edit edits induction =>
      obtain ⟨here, others⟩ := List.forall_mem_cons.mp among
      obtain ⟨mirrors, sized⟩ := mirrors.apply sized here
      exact induction mirrors sized others

theorem read_eq (mirrors : journal.Mirrors versions) (sized : journal.Sized groups counters)
    (register : Register) (among : register.Among groups counters) :
    journal.registers.read register = versions.newest.read register := by
  apply mirrors.newest
  rw [sized.groups_eq]
  exact among.fits

theorem spanOf (mirrors : journal.Mirrors versions) (sized : journal.Sized groups counters)
    {group : Nat} (inside : group < groups) :
    journal.spanOf group = versions.newest.capture group := by
  have starts : _ = versions.newest.starts group :=
    mirrors.read_eq sized (.groupStart group) inside
  have ends : _ = versions.newest.ends group :=
    mirrors.read_eq sized (.groupEnd group) inside
  rw [Journal.spanOf, starts, ends, Version.capture]
  cases versions.newest.starts group with
  | none => rfl
  | some first => cases versions.newest.ends group <;> rfl

theorem toTable (mirrors : journal.Mirrors versions) (sized : journal.Sized groups counters)
    (first last : Nat) :
    journal.toTable first last = versions.newest.table groups first last := by
  simp only [Journal.toTable, CaptureTable.assign, sized.groups_eq, Version.table,
    Array.size_map, Array.size_range]
  rcases Nat.eq_zero_or_pos groups with none | some
  · rw [none]
    rfl
  · rw [if_pos some, if_neg (Nat.ne_of_gt some)]
    congr 2
    apply Array.ext
    · simp
    · intro group within inside
      rw [Array.size_ofFn] at inside
      rw [Array.size_setIfInBounds] at within
      rw [Array.getElem_setIfInBounds within, Array.getElem_map, Array.getElem_range,
        Array.getElem_ofFn, mirrors.spanOf sized inside]
      simp only [eq_comm]

theorem slots_eq (mirrors : journal.Mirrors versions) (sized : journal.Sized groups counters) :
    journal.registers.slots.toList = versions.newest.row groups counters := by
  have size : journal.registers.slots.size = (groups + counters) * 2 := sized.size_eq
  apply List.ext_getElem?
  intro position
  rcases Nat.lt_or_ge position ((groups + counters) * 2) with inside | outside
  · obtain ⟨register, among, rfl⟩ := Register.exists_slot_eq inside
    have found : journal.registers.slots[register.slot groups]?.join =
        versions.newest.read register := by
      rw [← mirrors.read_eq sized register among, Registers.read, Registers.get,
        Registers.Sized.groups_eq sized]
    rw [versions.newest.getElem?_row among, ← found, Array.getElem?_toList,
      Array.getElem?_eq_getElem (by omega)]
    rfl
  · have length := versions.newest.length_row groups counters
    rw [List.getElem?_eq_none (by rw [Array.length_toList]; omega),
      List.getElem?_eq_none (by omega)]

end Mirrors

/-- Whatever is done to a journal after it was reset, in whatever order and rolled back to
whatever heights, its height, its captures, its counts and origins and its table are those of
the newest of the versions, and its row of registers is made of the maps of that one. -/
theorem edited_reads_as_versions (journal : Journal) (groups counters : Nat)
    (edits : List Edit) (among : ∀ edit ∈ edits, edit.Among groups counters) :
    let edited := edits.foldl Edit.apply (journal.reset groups counters)
    let versions := edits.foldl Edit.applyVersions .initial
    edited.height = versions.height ∧
      (∀ group < groups, edited.spanOf group = versions.newest.capture group) ∧
      (∀ counter < counters, edited.count counter = versions.newest.counts counter) ∧
      (∀ counter < counters, edited.origin counter = versions.newest.origins counter) ∧
      (∀ first last, edited.toTable first last = versions.newest.table groups first last) ∧
      edited.registers.slots.toList = versions.newest.row groups counters := by
  intro edited versions
  obtain ⟨mirrors, sized⟩ :=
    (Mirrors.reset journal groups counters).edited (journal.sized_reset groups counters) among
  exact ⟨mirrors.height, fun group inside => mirrors.spanOf sized inside,
    fun counter inside => mirrors.read_eq sized (.count counter) inside,
    fun counter inside => mirrors.read_eq sized (.origin counter) inside,
    mirrors.toTable sized, mirrors.slots_eq sized⟩

/-- A group and a counter are written twice each, and the journal is rolled back in between
to a height at which each was written once. -/
def rewrittenEdits : List Edit :=
  [.setStart 1 (some 3), .setEnd 1 (some 5), .startCounter 0, .setStart 1 (some 6),
    .setCount 0 (some 1), .rollBack 4, .setOrigin 0 (some 5), .rollBack 9]

theorem rewrittenEdits_read_as_versions :
    (∀ edit ∈ rewrittenEdits, edit.Among 2 1) ∧
      let edited := rewrittenEdits.foldl Edit.apply ((Journal.new 7 7).reset 2 1)
      edited.height = 5 ∧ edited.spanOf 1 = some ⟨3, 5⟩ ∧ edited.count 0 = some 0 ∧
        edited.origin 0 = some 5 ∧
          edited.toTable 0 9 = .ok ⟨#[some ⟨0, 9⟩, some ⟨3, 5⟩]⟩ ∧
            edited.registers.slots.toList = [none, none, some 3, some 5, some 0, some 5] := by
  have among : ∀ edit ∈ rewrittenEdits, edit.Among 2 1 := by
    simp [rewrittenEdits, Edit.Among]
  obtain ⟨height, captures, counts, origins, table, row⟩ :=
    edited_reads_as_versions (.new 7 7) 2 1 rewrittenEdits among
  exact ⟨among, height.trans rfl, (captures 1 (by decide)).trans rfl,
    (counts 0 (by decide)).trans rfl, (origins 0 (by decide)).trans rfl,
    (table 0 9).trans rfl, row.trans rfl⟩

end Journal

end RegexMachine
