import RegexMachine.Proofs.Pattern.Placement

/-! # Levels of fragments in place

Every address of a program is given a level, such as what is open there. Where the
instructions of a fragment lead, with their labels or by going on, the level is the same
as where they are, apart from what a capture or a lookaround encloses. So the level at
the end of a fragment is that at its beginning. -/

namespace RegexMachine

namespace Instruction

def label? : Instruction → Option Label
  | .jump target | .branch target | .save target | .clearThrough target _
  | .quantify _ _ _ _ target | .repeatEnd _ target => some target
  | _ => none

/-- Whether the instruction neither encloses a part of a fragment nor ends a program. -/
def isPlain : Instruction → Bool
  | .save _ | .clear | .clearThrough _ _ | .beginCapture _ | .endCapture _ | .accept => false
  | _ => true

end Instruction

namespace Program

variable {α : Type} {program : Program} {level : Nat → α} {rule : Nat → Instruction → Prop}
  {first middle last address : Nat} {label : Label} {instruction : Instruction} {base : α}

/-- The instructions between the addresses keep a rule, and the level at the end is that
at the beginning. -/
structure Steady (program : Program) (level : Nat → α) (rule : Nat → Instruction → Prop)
    (first last : Nat) : Prop where
  level_eq : level last = level first
  keeps : ∀ address, first ≤ address → address < last → ∀ instruction,
    program.instructions[address]? = some instruction → rule address instruction

namespace Steady

theorem refl (program : Program) (level : Nat → α) (rule : Nat → Instruction → Prop)
    (address : Nat) : program.Steady level rule address address :=
  ⟨rfl, fun _ _ _ => by omega⟩

theorem trans (front : program.Steady level rule first middle)
    (back : program.Steady level rule middle last) : program.Steady level rule first last where
  level_eq := back.level_eq.trans front.level_eq
  keeps address behind before := by
    rcases Nat.lt_or_ge address middle with earlier | later
    · exact front.keeps address behind earlier
    · exact back.keeps address later before

theorem single (found : program.instructions[first]? = some instruction)
    (flat : level (first + 1) = level first) (keeps : rule first instruction) :
    program.Steady level rule first (first + 1) where
  level_eq := flat
  keeps address behind before other read := by
    obtain rfl : address = first := by omega
    rw [found] at read
    cases read
    exact keeps

end Steady

def LeadsTo (program : Program) (level : Nat → α) (label : Label) (base : α) : Prop :=
  ∃ goal, program.target? label = some goal ∧ goal < program.instructions.size ∧
    level goal = base

def Loops (program : Program) (instruction : Instruction) : Prop :=
  ∀ counter head, instruction = .repeatEnd counter head → ∃ goal greed min max exit,
    program.target? head = some goal ∧
      program.instructions[goal]? = some (.quantify greed min max counter exit)

/-- Jumps and branches leave the level as it is, and they keep the rule if they lead to
where the level is the same. -/
structure Diverts (program : Program) (level : Nat → α) (rule : Nat → Instruction → Prop) :
    Prop where
  flat : ∀ (address : Nat) label, program.instructions[address]? = some (.jump label) ∨
    program.instructions[address]? = some (.branch label) → level (address + 1) = level address
  keeps : ∀ (address : Nat) label instruction,
    program.instructions[address]? = some instruction →
      instruction = .jump label ∨ instruction = .branch label →
        program.LeadsTo level label (level address) → rule address instruction

theorem Diverts.leading (diverts : program.Diverts level rule)
    (leads : program.LeadsTo level label (level first))
    (found : program.instructions[first]? = some (.jump label) ∨
      program.instructions[first]? = some (.branch label)) :
    program.Steady level rule first (first + 1) := by
  have flat := diverts.flat _ _ found
  rcases found with found | found
  · exact .single found flat (diverts.keeps _ _ _ found (.inl rfl) leads)
  · exact .single found flat (diverts.keeps _ _ _ found (.inr rfl) leads)

/-- Plain instructions leave the level as it is, and they keep the rule if their labels
lead to where the level is the same. -/
structure Steers (program : Program) (level : Nat → α) (rule : Nat → Instruction → Prop) :
    Prop where
  flat : ∀ (address : Nat) instruction, program.instructions[address]? = some instruction →
    instruction.isPlain = true → level (address + 1) = level address
  keeps : ∀ (address : Nat) instruction, program.instructions[address]? = some instruction →
    instruction.isPlain = true →
      (∀ label, instruction.label? = some label →
        program.LeadsTo level label (level address)) →
      program.Loops instruction → rule address instruction

namespace Steers

theorem single (steers : program.Steers level rule)
    (found : program.instructions[first]? = some instruction)
    (plain : instruction.isPlain = true)
    (leads : ∀ label, instruction.label? = some label →
      program.LeadsTo level label (level first))
    (loops : program.Loops instruction) : program.Steady level rule first (first + 1) :=
  .single found (steers.flat _ _ found plain) (steers.keeps _ _ found plain leads loops)

theorem leaf (steers : program.Steers level rule)
    (found : program.instructions[first]? = some instruction)
    (plain : instruction.isPlain = true) (unlabelled : instruction.label? = none) :
    program.Steady level rule first (first + 1) := by
  refine steers.single found plain (fun label same => ?_) ?_
  · rw [unlabelled] at same
    cases same
  · rintro counter head rfl
    cases unlabelled

theorem diverts (steers : program.Steers level rule) : program.Diverts level rule where
  flat address label found := by
    rcases found with found | found <;> exact steers.flat _ _ found rfl
  keeps address label instruction found labels leads := by
    rcases labels with rfl | rfl
    all_goals
      refine steers.keeps _ _ found rfl (fun other same => ?_) nofun
      cases same
      exact leads

theorem leading (steers : program.Steers level rule) (leads : program.LeadsTo level label
      (level first))
    (found : program.instructions[first]? = some (.jump label) ∨
      program.instructions[first]? = some (.branch label)) :
    program.Steady level rule first (first + 1) :=
  steers.diverts.leading leads found

end Steers

end Program

namespace Fragment

variable {α : Type} {program : Program} {level : Nat → α} {rule : Nat → Instruction → Prop}
  {direction : Direction} {first last floor : Nat} {base : α}

variable [CharacterData]

/-- Wherever the fragment is placed, its ends are in order, and it is steady if it begins
at the level and there is an instruction after it. -/
def SteadyAt (program : Program) (level : Nat → α) (rule : Nat → Instruction → Prop)
    (base : α) (fragment : Fragment) : Prop :=
  ∀ direction first last floor, fragment.Placed program direction first last floor →
    first ≤ last ∧ (last < program.instructions.size → level first = base →
      program.Steady level rule first last)

def SteadyFrom (program : Program) (level : Nat → α) (rule : Nat → Instruction → Prop)
    (base : α) (floor : Nat) (fragment : Fragment) : Prop :=
  ∀ direction first last, fragment.Placed program direction first last floor →
    first ≤ last ∧ (last < program.instructions.size → level first = base →
      program.Steady level rule first last)

theorem steady_row {parts : List Fragment}
    (each : ∀ part ∈ parts, part.SteadyFrom program level rule base floor)
    (placed : PlacedRow program parts direction first last floor) :
    first ≤ last ∧ (last < program.instructions.size → level first = base →
      program.Steady level rule first last) := by
  have join {first middle last}
      (front : first ≤ middle ∧ (middle < program.instructions.size → level first = base →
        program.Steady level rule first middle))
      (back : middle ≤ last ∧ (last < program.instructions.size → level middle = base →
        program.Steady level rule middle last)) :
      first ≤ last ∧ (last < program.instructions.size → level first = base →
        program.Steady level rule first last) := by
    refine ⟨Nat.le_trans front.1 back.1, fun inside here => ?_⟩
    have steady := front.2 (Nat.lt_of_le_of_lt back.1 inside) here
    exact steady.trans (back.2 inside (steady.level_eq.trans here))
  induction parts generalizing first last with
  | nil =>
      cases placed
      exact ⟨Nat.le_refl _, fun _ _ => .refl program level rule first⟩
  | cons part rest induction =>
      obtain ⟨here, others⟩ := List.forall_mem_cons.mp each
      cases direction with
      | forward =>
          obtain ⟨middle, front, back⟩ := placed
          exact join (here _ _ _ front) (induction others back)
      | reverse =>
          obtain ⟨middle, front, back⟩ := placed
          exact join (induction others front) (here _ _ _ back)

theorem level_entries (diverts : program.Diverts level rule) {alternatives : List Fragment}
    {entry : Nat} (placed : PlacedChoice program alternatives direction entry first last floor) :
    level (entry + alternatives.length) = level entry := by
  induction alternatives generalizing entry first with
  | nil => rfl
  | cons alternative rest induction =>
      obtain ⟨target, middle, -, -, following⟩ := placed
      cases rest with
      | nil => exact diverts.flat _ _ (.inl following.1)
      | cons next rest =>
          obtain ⟨branched, -, placed⟩ := following
          have later := induction placed
          rw [Nat.add_right_comm] at later
          exact later.trans (diverts.flat _ _ (.inr branched))

theorem steady_choice (diverts : program.Diverts level rule) {alternatives : List Fragment}
    {entry : Nat} (each : ∀ part ∈ alternatives, part.SteadyFrom program level rule base floor)
    (placed : PlacedChoice program alternatives direction entry first last floor) :
    first ≤ last ∧ (last < program.instructions.size → level entry = base →
      level first = base →
        program.Steady level rule entry (entry + alternatives.length) ∧
          program.Steady level rule first last) := by
  induction alternatives generalizing entry first with
  | nil => exact placed.elim
  | cons alternative rest induction =>
      obtain ⟨here, others⟩ := List.forall_mem_cons.mp each
      obtain ⟨target, middle, bound, body, following⟩ := placed
      obtain ⟨ordered, steady⟩ := here _ _ _ body
      cases rest with
      | nil =>
          obtain ⟨jumped, rfl⟩ := following
          refine ⟨ordered, fun inside entered begins => ⟨?_, steady inside begins⟩⟩
          exact diverts.leading ⟨first, bound, by omega, begins.trans entered.symm⟩
            (.inl jumped)
      | cons next rest =>
          obtain ⟨branched, ⟨done, left, ends⟩, placed⟩ := following
          obtain ⟨later, others⟩ := induction others placed
          refine ⟨by omega, fun inside entered begins => ?_⟩
          have body := steady (by omega) begins
          have jumps : level (middle + 1) = level middle := diverts.flat _ _ (.inl left)
          have branches : program.Steady level rule entry (entry + 1) :=
            diverts.leading ⟨first, bound, by omega, begins.trans entered.symm⟩ (.inr branched)
          obtain ⟨entries, alternatives⟩ := others inside (branches.level_eq.trans entered)
            (jumps.trans (body.level_eq.trans begins))
          have leaves : program.Steady level rule middle (middle + 1) :=
            diverts.leading ⟨last, ends, inside, alternatives.level_eq.trans jumps⟩ (.inl left)
          refine ⟨?_, body.trans (leaves.trans alternatives)⟩
          have length : entry + (alternative :: next :: rest).length =
              entry + 1 + (next :: rest).length := by
            simp only [List.length_cons]
            omega
          rw [length]
          exact branches.trans entries

theorem steadyAt_repetition (steers : program.Steers level rule) (greed : Greed)
    (min max : UInt32) {body : Fragment} (steady : body.SteadyAt program level rule base) :
    (repetition greed min max body).SteadyAt program level rule base := by
  intro direction first last floor placed
  obtain ⟨counter, done, back, middle, -, rfl, started, quantified, ends, placed, repeated,
    returns⟩ := placed
  obtain ⟨ordered, steady⟩ := steady _ _ _ _ placed
  refine ⟨by omega, fun inside begins => ?_⟩
  have starts := steers.leaf started rfl rfl
  have decides : level (first + 2) = level (first + 1) := steers.flat _ _ quantified rfl
  have counts : level (middle + 1) = level middle := steers.flat _ _ repeated rfl
  have body := steady (by omega) (decides.trans (starts.level_eq.trans begins))
  have same : level middle = level (first + 1) := body.level_eq.trans decides
  have quantifies : program.Steady level rule (first + 1) (first + 2) := by
    refine steers.single quantified rfl (fun label equal => ?_) nofun
    cases equal
    exact ⟨middle + 1, ends, inside, counts.trans same⟩
  have repeats : program.Steady level rule middle (middle + 1) := by
    refine steers.single repeated rfl (fun label equal => ?_) fun _ _ equal => ?_
    · cases equal
      exact ⟨first + 1, returns, by omega, same.symm⟩
    · cases equal
      exact ⟨first + 1, _, _, _, _, returns, quantified⟩
  exact starts.trans (quantifies.trans (body.trans repeats))

/-- The condition `fits` on a fragment and a level is passed on to the parts at the same
level, and what a capture or a lookaround encloses is steady if everything that fits is. -/
structure Inherits (program : Program) (level : Nat → α) (rule : Nat → Instruction → Prop)
    (fits : Fragment → α → Prop) : Prop where
  sequence : ∀ {parts base}, fits (sequence parts) base → ∀ part ∈ parts, fits part base
  alternation : ∀ {alternatives base}, fits (alternation alternatives) base →
    ∀ alternative ∈ alternatives, fits alternative base
  repetition : ∀ {greed min max body base}, fits (repetition greed min max body) base →
    fits body base
  capture : ∀ {group body}, (∀ base, fits body base → body.SteadyAt program level rule base) →
    ∀ base, fits (capture group body) base →
      (Fragment.capture group body).SteadyAt program level rule base
  lookaround : ∀ {sight negated body},
    (∀ base, fits body base → body.SteadyAt program level rule base) →
      ∀ base, fits (lookaround sight negated body) base →
        (Fragment.lookaround sight negated body).SteadyAt program level rule base

theorem steadyAt (steers : program.Steers level rule) {fits : Fragment → α → Prop}
    (inherits : Inherits program level rule fits) (fragment : Fragment) :
    ∀ base, fits fragment base → fragment.SteadyAt program level rule base := by
  have leaf {base first last} {instruction : Instruction} (next : last = first + 1)
      (found : program.instructions[first]? = some instruction)
      (plain : instruction.isPlain = true) (unlabelled : instruction.label? = none) :
      first ≤ last ∧ (last < program.instructions.size → level first = base →
        program.Steady level rule first last) := by
    subst next
    exact ⟨Nat.le_succ first, fun _ _ => steers.leaf found plain unlabelled⟩
  induction fragment using Fragment.induct with
  | literal =>
      intro base fit direction first last floor placed
      obtain ⟨next, _, _, _, found, -⟩ := placed
      exact leaf next found rfl rfl
  | any => exact fun _ _ _ _ _ _ placed => leaf placed.1 placed.2 rfl rfl
  | ofClass => exact fun _ _ _ _ _ _ placed => leaf placed.1 placed.2 rfl rfl
  | ofSet =>
      intro base fit direction first last floor placed
      obtain ⟨next, _, _, found, -⟩ := placed
      exact leaf next found rfl rfl
  | backref => exact fun _ _ _ _ _ _ placed => leaf placed.1 placed.2 rfl rfl
  | skip =>
      intro base fit direction first last floor placed
      obtain ⟨next, _, -, found⟩ := placed
      exact leaf next found rfl rfl
  | anchored => exact fun _ _ _ _ _ _ placed => leaf placed.1 placed.2 rfl rfl
  | sequence parts induction =>
      intro base fit direction first last floor placed
      refine steady_row (fun part member direction first last => ?_) placed
      exact induction part member base (inherits.sequence fit part member) _ _ _ _
  | alternation alternatives induction =>
      intro base fit direction first last floor placed
      cases alternatives with
      | nil => exact leaf placed.1 placed.2 rfl rfl
      | cons alternative rest =>
          have each (part : Fragment) (member : part ∈ alternative :: rest) :
              part.SteadyFrom program level rule base floor := fun _ _ _ =>
            induction part member base (inherits.alternation fit part member) _ _ _ _
          obtain ⟨ordered, steady⟩ := steady_choice steers.diverts each placed
          refine ⟨by omega, fun inside begins => ?_⟩
          obtain ⟨entries, alternatives⟩ := steady inside begins
            ((level_entries steers.diverts placed).trans begins)
          exact entries.trans alternatives
  | repetition greed min max body induction =>
      exact fun base fit => steadyAt_repetition steers greed min max
        (induction base (inherits.repetition fit))
  | capture group body induction => exact inherits.capture induction
  | lookaround sight negated body induction => exact inherits.lookaround induction

end Fragment

end RegexMachine
