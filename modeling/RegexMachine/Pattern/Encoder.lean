import RegexMachine.Integer
import RegexMachine.Program.Validation

/-! # Encoder

An encoder holds a program under construction. Each of its operations either
returns a result or stops with a fault, and in both cases the encoder keeps
whatever it has changed by then: a literal that turns out too long stays in
the pool. An encoder that has finished, whether its program was turned away or
not, takes no further instruction. -/

namespace RegexMachine

structure Encoder where
  program : Program
  finished : Bool := false
deriving DecidableEq, Repr

abbrev Encode := EStateM Fault Encoder

abbrev Emitter := Direction → Encode Unit

namespace Encoder

def new (entry : Direction) (granularity : Granularity) : Encoder where
  program := { entry, granularity }

/-! ## Resources -/

def orStop {α : Type} (operand : Option α) (fault : Fault) : Encode α :=
  match operand with
  | some value => return value
  | none => throw fault

def change (next : Program → Program) : Encode Unit :=
  modify fun encoder => { encoder with program := next encoder.program }

def changeGet {α : Type} (result : Program → α) (next : Program → Program) :
    Encode α :=
  modifyGet fun encoder =>
    (result encoder.program, { encoder with program := next encoder.program })

/-- A new label that is bound nowhere yet. The greatest word names no label. -/
def freshLabel : Encode Label := do
  let id ← changeGet (·.targets.size) fun program =>
    { program with targets := program.targets.push none }
  if id + 1 < 0x100000000 then return ⟨id.toUInt32⟩ else throw .resourceLimit

def bindLabel (label : Label) : Encode Unit := do
  if (← get).program.targets[label.id.toNat]? = some none then
    change fun program =>
      let address := some program.instructions.size
      { program with
        targets := program.targets.setIfInBounds label.id.toNat address }
  else throw .branchTarget

/-- Make sure that a group exists, together with all groups before it. -/
def reserveGroup (group : UInt16) : Encode Unit := do
  if group = 0 then throw .captureGroup
  change fun program =>
    { program with captureCount := max program.captureCount (group.toNat + 1) }

def freshGroup : Encode UInt16 := do
  let group ← orStop (word16? (← get).program.captureCount) .resourceLimit
  reserveGroup group
  return group

def freshCounter : Encode UInt16 := do
  let counter ← orStop (word16? (← get).program.counterCount) .resourceLimit
  change fun program => { program with counterCount := program.counterCount + 1 }
  return counter

def addLiteral (literal : Octets) : Encode (UInt32 × UInt16) := do
  let offset ← changeGet (·.data.size) fun program =>
    { program with data := program.data ++ literal }
  let offset ← orStop (word32? offset) .resourceLimit
  let length ← orStop (word16? literal.size) .programLimit
  return (offset, length)

def addRuneSet (set : RuneSet) : Encode UInt16 := do
  let index ← changeGet (·.runeSets.size) fun program =>
    { program with runeSets := program.runeSets.push set }
  orStop (word16? index) .resourceLimit

/-! ## Instructions

Each of these returns the address of the instruction that it appends. -/

def here : Encode Nat :=
  return (← get).program.instructions.size

def append (instruction : Instruction) : Encode Nat := do
  if (← get).finished then throw .finished
  changeGet (·.instructions.size) fun program =>
    { program with instructions := program.instructions.push instruction }

variable [CharacterData]

/-- Match a literal. Without case, it is stored folded. -/
def matchString (literal : Octets) (direction : Direction)
    (flags : MatchFlags) : Encode Nat := do
  let caseless := flags.has .caseless
  let (offset, length) ←
    addLiteral (if caseless then literal.foldCase Rune.caseFold else literal)
  append (.matchString direction offset length caseless (flags.has .boundary))

def matchAny (direction : Direction) (flags : MatchFlags) : Encode Nat :=
  append (.matchAny direction (flags.has .newline) (flags.has .boundary))

def matchClass (runeClass : RuneClass) (direction : Direction)
    (flags : MatchFlags) (negated : Bool) : Encode Nat :=
  append (.matchClass direction runeClass negated (flags.has .boundary))

/-- The normalised set of the given ranges, with the foldings of their runes
where case does not count. -/
def gatherRanges (ranges : List Interval) (caseless : Bool) :
    Except Fault RuneSet := do
  let set ← ranges.foldlM (fun (set : RuneSet) range =>
    if caseless then set.pushFolded range.first range.last Rune.caseFold
    else set.push range.first range.last) RuneSet.empty
  return set.normalize

def matchSet (ranges : List Interval) (direction : Direction)
    (flags : MatchFlags) (negated : Bool) : Encode Nat := do
  let caseless := flags.has .caseless
  match gatherRanges ranges caseless with
  | .error fault => throw fault
  | .ok set =>
      let index ← addRuneSet set
      append (.matchSet direction index negated caseless (flags.has .boundary))

def matchBackref (group : UInt16) (direction : Direction)
    (flags : MatchFlags) : Encode Nat := do
  reserveGroup group
  append (.matchBackref direction group (flags.has .caseless)
    (flags.has .boundary))

def advance (count : Nat) (direction : Direction) : Encode Nat := do
  let count ← orStop (word32? count) .programLimit
  append (.advance direction count)

def quantify (greed : Greed) (min max : UInt32) (counter : UInt16)
    (exit : Label) : Encode Nat := do
  if max < min then throw .quantifier
  append (.quantify greed min max counter exit)

def beginCapture (group : UInt16) : Encode Nat := do
  reserveGroup group
  append (.beginCapture group)

def endCapture (group : UInt16) : Encode Nat := do
  reserveGroup group
  append (.endCapture group)

/-! ## Composition -/

/-- One part after the other. In reverse the last part comes first. -/
def sequence (parts : List Emitter) : Emitter
  | .forward => parts.forM (· .forward)
  | .reverse => parts.reverse.forM (· .reverse)

def dispatch : List Label → Encode Unit
  | [] => pure ()
  | [entry] => discard (append (.jump entry))
  | entry :: rest => do
      discard (append (.branch entry))
      dispatch rest

/-- Emit the alternatives at their entries. All but the last one jump to the
end. -/
def emitAlternatives (done : Label) (direction : Direction) :
    List (Label × Emitter) → Encode Unit
  | [] => pure ()
  | [(entry, body)] => do
      bindLabel entry
      body direction
  | (entry, body) :: rest => do
      bindLabel entry
      body direction
      discard (append (.jump done))
      emitAlternatives done direction rest

/-- The first alternative that leads to a match, in both directions. Without
any alternative there is none. -/
def alternation (alternatives : List Emitter) : Emitter := fun direction =>
  if alternatives.isEmpty then discard (append .fail)
  else do
    let entries ← alternatives.mapM fun _ => freshLabel
    let done ← freshLabel
    dispatch entries
    emitAlternatives done direction (entries.zip alternatives)
    bindLabel done

def repetition (greed : Greed) (min max : UInt32) (body : Emitter) : Emitter :=
  fun direction => do
    let counter ← freshCounter
    let head ← freshLabel
    let exit ← freshLabel
    discard (append (.repeatStart counter))
    bindLabel head
    discard (quantify greed min max counter exit)
    body direction
    discard (append (.repeatEnd counter head))
    bindLabel exit

/-- A body whose extent a group captures. In reverse the right end comes
first. -/
def capture (group : UInt16) (body : Emitter) : Emitter
  | .forward => do
      discard (beginCapture group)
      body .forward
      discard (endCapture group)
  | .reverse => do
      discard (endCapture group)
      body .reverse
      discard (beginCapture group)

/-- A body that is matched in the direction of `sight`, whatever the direction
around it, and consumes nothing. -/
def lookaround (sight : Direction) (negated : Bool) (body : Emitter) :
    Encode Unit :=
  if negated then do
    let done ← freshLabel
    discard (append (.save done))
    body sight
    discard (append (.clearThrough done false))
    discard (append .fail)
    bindLabel done
  else do
    let failure ← freshLabel
    let done ← freshLabel
    discard (append (.save failure))
    body sight
    discard (append (.clearThrough failure true))
    discard (append (.jump done))
    bindLabel failure
    discard (append .fail)
    bindLabel done

/-- Hand the program over. The encoder keeps a program that is turned away and
otherwise is left with an empty one. -/
def finish : Encode Program := do
  if (← get).finished then throw .finished
  modify fun encoder => { encoder with finished := true }
  let program := (← get).program
  match program.defect? with
  | some rejection => throw (.rejected rejection)
  | none =>
      change fun _ => {}
      return program

end Encoder

end RegexMachine
