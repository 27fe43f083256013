import RegexMachine.Proofs.Pattern.Encoding
import RegexMachine.Proofs.Pattern.Parts

/-! # Calls on an encoder

A caller makes one call after the other on an encoder. Each of them returns or stops with
a fault, and the caller may put up with the fault and go on. The compositions of the encoder
make calls on behalf of their caller. A history lists all calls that were made, in their order
and with their outcomes. -/

namespace RegexMachine

/-- Whether the instruction refers to no pool and no group, and carries no bounds. -/
def Instruction.isBare : Instruction → Bool
  | .jump _ | .branch _ | .save _ | .clear | .clearThrough _ _ | .repeatStart _
  | .repeatEnd _ _ | .assertAnchor _ | .fail | .accept => true
  | _ => false

namespace Encoder

/-- A call that appends one instruction if it returns. -/
inductive Emission where
  | matchString (literal : Octets) (direction : Direction) (flags : MatchFlags)
  | matchAny (direction : Direction) (flags : MatchFlags)
  | matchClass (runeClass : RuneClass) (direction : Direction) (flags : MatchFlags)
      (negated : Bool)
  | matchSet (ranges : List Interval) (direction : Direction) (flags : MatchFlags)
      (negated : Bool)
  | matchBackref (group : UInt16) (direction : Direction) (flags : MatchFlags)
  | advance (count : Nat) (direction : Direction)
  | quantify (greed : Greed) (min max : UInt32) (counter : UInt16) (exit : Label)
  | beginCapture (group : UInt16)
  | endCapture (group : UInt16)
  /-- An instruction that is appended as it is given. -/
  | plain (instruction : Instruction) (bare : instruction.isBare = true)

namespace Emission

variable [CharacterData]

def perform : Emission → Encode Nat
  | matchString literal direction flags => Encoder.matchString literal direction flags
  | matchAny direction flags => Encoder.matchAny direction flags
  | matchClass runeClass direction flags negated =>
      Encoder.matchClass runeClass direction flags negated
  | matchSet ranges direction flags negated => Encoder.matchSet ranges direction flags negated
  | matchBackref group direction flags => Encoder.matchBackref group direction flags
  | advance count direction => Encoder.advance count direction
  | quantify greed min max counter exit => Encoder.quantify greed min max counter exit
  | beginCapture group => Encoder.beginCapture group
  | endCapture group => Encoder.endCapture group
  | plain instruction _ => append instruction

def group? : Emission → Option UInt16
  | matchBackref group _ _ | beginCapture group | endCapture group => some group
  | _ => none

end Emission

inductive Call where
  | label
  | bind (target : Label)
  | group
  | counter
  | emit (emission : Emission)
  | finish

namespace Call

abbrev Result : Call → Type
  | label => Label
  | bind _ => Unit
  | group | counter => UInt16
  | emit _ => Nat
  | finish => Program

variable [CharacterData]

def perform : (call : Call) → Encode call.Result
  | label => freshLabel
  | bind target => bindLabel target
  | group => freshGroup
  | counter => freshCounter
  | emit emission => emission.perform
  | finish => Encoder.finish

end Call

structure Entry where
  call : Call
  outcome : Except Fault call.Result

/-! ## Outcomes -/

variable {α β : Type} {encoder middle : Encoder}

def leftBy (action : Encode α) (encoder : Encoder) : Encoder :=
  match action encoder with
  | .ok _ after => after
  | .error _ after => after

def outcomeOf (action : Encode α) (encoder : Encoder) : Except Fault α :=
  match action encoder with
  | .ok value _ => .ok value
  | .error fault _ => .error fault

section

variable {action first : Encode α} {second : α → Encode β} {handler : Fault → Encode α}
  {value : α} {fault : Fault}

theorem leftBy_of_ok (returns : action encoder = .ok value middle) :
    encoder.leftBy action = middle := by
  rw [leftBy, returns]

theorem leftBy_of_error (stops : action encoder = .error fault middle) :
    encoder.leftBy action = middle := by
  rw [leftBy, stops]

theorem outcomeOf_of_ok (returns : action encoder = .ok value middle) :
    encoder.outcomeOf action = .ok value := by
  rw [outcomeOf, returns]

theorem outcomeOf_of_error (stops : action encoder = .error fault middle) :
    encoder.outcomeOf action = .error fault := by
  rw [outcomeOf, stops]

theorem leftBy_bind_of_ok (returns : first encoder = .ok value middle) :
    encoder.leftBy (first >>= second) = middle.leftBy (second value) := by
  change (match EStateM.bind first second encoder with
    | .ok _ after => after
    | .error _ after => after) = _
  rw [EStateM.bind, returns]
  rfl

theorem leftBy_bind_of_error (stops : first encoder = .error fault middle) :
    encoder.leftBy (first >>= second) = middle :=
  leftBy_of_error (bind_of_error stops)

/-- What an action has changed before it stops is there for whoever takes over. -/
theorem tryCatch_eq (first : Encode α) (handler : Fault → Encode α) (encoder : Encoder) :
    tryCatch first handler encoder =
      match first encoder with
      | .ok value after => .ok value after
      | .error fault after => handler fault after := by
  change EStateM.tryCatch first handler encoder = _
  delta EStateM.tryCatch
  dsimp only
  cases first encoder <;> rfl

theorem leftBy_tryCatch_of_ok (returns : first encoder = .ok value middle) :
    encoder.leftBy (tryCatch first handler) = middle := by
  rw [leftBy, tryCatch_eq, returns]

theorem leftBy_tryCatch_of_error (stops : first encoder = .error fault middle) :
    encoder.leftBy (tryCatch first handler) = middle.leftBy (handler fault) := by
  rw [leftBy, tryCatch_eq, stops]
  rfl

end

theorem finished_of_finish (encoder : Encoder) : (encoder.leftBy finish).finished = true := by
  rw [leftBy, finish_eq]
  cases finished : encoder.finished with
  | true => exact finished
  | false => cases encoder.program.defect? <;> rfl

/-! ## Histories -/

variable [CharacterData]

/-- Performed on the encoder, the action makes the calls of the history. -/
inductive Makes : {α : Type} → Encode α → Encoder → List Entry → Prop
  | call (call : Call) (encoder : Encoder) :
      Makes call.perform encoder [⟨call, encoder.outcomeOf call.perform⟩]
  | get (encoder : Encoder) : Makes get encoder []
  | pure {α : Type} (value : α) (encoder : Encoder) : Makes (Pure.pure value) encoder []
  | throw {α : Type} (fault : Fault) (encoder : Encoder) :
      Makes (throw fault : Encode α) encoder []
  | bindReturning {α β : Type} {first : Encode α} {second : α → Encode β}
      {encoder middle : Encoder} {value : α} {early late : List Entry}
      (front : Makes first encoder early) (returns : first encoder = .ok value middle)
      (back : Makes (second value) middle late) :
      Makes (first >>= second) encoder (early ++ late)
  | bindStopping {α β : Type} {first : Encode α} {second : α → Encode β}
      {encoder middle : Encoder} {fault : Fault} {early : List Entry}
      (front : Makes first encoder early) (stops : first encoder = .error fault middle) :
      Makes (first >>= second) encoder early
  | rescueReturning {α : Type} {first : Encode α} {handler : Fault → Encode α}
      {encoder middle : Encoder} {value : α} {early : List Entry}
      (front : Makes first encoder early) (returns : first encoder = .ok value middle) :
      Makes (tryCatch first handler) encoder early
  | rescueStopping {α : Type} {first : Encode α} {handler : Fault → Encode α}
      {encoder middle : Encoder} {fault : Fault} {early late : List Entry}
      (front : Makes first encoder early) (stops : first encoder = .error fault middle)
      (back : Makes (handler fault) middle late) :
      Makes (tryCatch first handler) encoder (early ++ late)

/-- The action does nothing to an encoder but make calls, one by one or by way of a
composition whose bodies do nothing else either. Which call comes next may depend on what the
earlier ones returned and on which of them stopped. -/
inductive Scripted : {α : Type} → Encode α → Prop
  | call (call : Call) : Scripted call.perform
  | get : Scripted get
  | pure {α : Type} (value : α) : Scripted (Pure.pure value)
  | throw {α : Type} (fault : Fault) : Scripted (throw fault : Encode α)
  | bind {α β : Type} {first : Encode α} {second : α → Encode β} (front : Scripted first)
      (back : ∀ value, Scripted (second value)) : Scripted (first >>= second)
  | rescue {α : Type} {first : Encode α} {handler : Fault → Encode α} (front : Scripted first)
      (back : ∀ fault, Scripted (handler fault)) : Scripted (tryCatch first handler)
  | sequence (parts : List Emitter) (direction : Direction)
      (each : ∀ part ∈ parts, ∀ direction, Scripted (part direction)) :
      Scripted (Encoder.sequence parts direction)
  | alternation (alternatives : List Emitter) (direction : Direction)
      (each : ∀ alternative ∈ alternatives, ∀ direction, Scripted (alternative direction)) :
      Scripted (Encoder.alternation alternatives direction)
  | repetition (greed : Greed) (min max : UInt32) (body : Emitter) (direction : Direction)
      (scripted : ∀ direction, Scripted (body direction)) :
      Scripted (Encoder.repetition greed min max body direction)
  | capture (group : UInt16) (body : Emitter) (direction : Direction)
      (scripted : ∀ direction, Scripted (body direction)) :
      Scripted (Encoder.capture group body direction)
  | lookaround (sight : Direction) (negated : Bool) (body : Emitter)
      (scripted : ∀ direction, Scripted (body direction)) :
      Scripted (Encoder.lookaround sight negated body)

def Recorded (action : Encode α) : Prop :=
  ∀ encoder, ∃ history, Makes action encoder history

namespace Recorded

variable {first : Encode α} {second : α → Encode β}

theorem call (call : Call) : Recorded call.perform := fun encoder => ⟨_, .call call encoder⟩

theorem pure (value : α) : Recorded (Pure.pure value) := fun encoder => ⟨_, .pure value encoder⟩

theorem bind (front : Recorded first) (back : ∀ value, Recorded (second value)) :
    Recorded (first >>= second) := by
  intro encoder
  obtain ⟨early, front⟩ := front encoder
  cases returned : first encoder with
  | ok value middle =>
      obtain ⟨late, back⟩ := back value middle
      exact ⟨_, .bindReturning front returned back⟩
  | error fault middle => exact ⟨_, .bindStopping front returned⟩

theorem rescue {handler : Fault → Encode α} (front : Recorded first)
    (back : ∀ fault, Recorded (handler fault)) : Recorded (tryCatch first handler) := by
  intro encoder
  obtain ⟨early, front⟩ := front encoder
  cases returned : first encoder with
  | ok value middle => exact ⟨_, .rescueReturning front returned⟩
  | error fault middle =>
      obtain ⟨late, back⟩ := back fault middle
      exact ⟨_, .rescueStopping front returned back⟩

theorem discard (recorded : Recorded first) : Recorded (Functor.discard first) := by
  rw [discard_eq_bind]
  exact recorded.bind fun _ => pure ()

theorem plain (instruction : Instruction) (bare : instruction.isBare = true) :
    Recorded (Functor.discard (append instruction)) :=
  discard (call (.emit (.plain instruction bare)))

theorem forM {items : List α} {step : α → Encode Unit}
    (each : ∀ item ∈ items, Recorded (step item)) : Recorded (items.forM step) := by
  induction items with
  | nil => exact pure ()
  | cons item rest induction =>
      obtain ⟨here, others⟩ := List.forall_mem_cons.mp each
      exact here.bind fun _ => induction others

theorem freshLabels (items : List α) : Recorded (items.mapM fun _ => freshLabel) := by
  induction items with
  | nil => exact pure []
  | cons item rest induction =>
      rw [List.mapM_cons]
      exact (call .label).bind fun _ => induction.bind fun _ => pure _

theorem dispatch (entries : List Label) : Recorded (Encoder.dispatch entries) := by
  induction entries with
  | nil => exact pure ()
  | cons entry rest induction =>
      cases rest with
      | nil => exact plain (.jump entry) rfl
      | cons next rest => exact (plain (.branch entry) rfl).bind fun _ => induction

theorem emitAlternatives (exit : Label) (direction : Direction)
    {alternatives : List (Label × Emitter)}
    (each : ∀ alternative ∈ alternatives, Recorded (alternative.2 direction)) :
    Recorded (Encoder.emitAlternatives exit direction alternatives) := by
  induction alternatives with
  | nil => exact pure ()
  | cons alternative rest induction =>
      obtain ⟨here, others⟩ := List.forall_mem_cons.mp each
      cases rest with
      | nil => exact (call (.bind alternative.1)).bind fun _ => here
      | cons next rest =>
          exact (call (.bind alternative.1)).bind fun _ => here.bind fun _ =>
            (plain (.jump exit) rfl).bind fun _ => induction others

theorem sequence {parts : List Emitter} {direction : Direction}
    (each : ∀ part ∈ parts, ∀ direction, Recorded (part direction)) :
    Recorded (Encoder.sequence parts direction) := by
  cases direction with
  | forward => exact forM fun part member => each part member .forward
  | reverse => exact forM fun part member => each part (List.mem_reverse.mp member) .reverse

theorem alternation {alternatives : List Emitter} {direction : Direction}
    (each : ∀ alternative ∈ alternatives, ∀ direction, Recorded (alternative direction)) :
    Recorded (Encoder.alternation alternatives direction) := by
  rw [Encoder.alternation]
  split
  · exact plain .fail rfl
  · refine (freshLabels alternatives).bind fun entries => (call .label).bind fun exit =>
      (dispatch entries).bind fun _ => ?_
    have offers : Recorded
        (Encoder.emitAlternatives exit direction (entries.zip alternatives)) :=
      emitAlternatives exit direction fun alternative member =>
        each alternative.2 (List.of_mem_zip member).2 direction
    exact offers.bind fun _ => call (.bind exit)

theorem repetition (greed : Greed) (min max : UInt32) {body : Emitter} {direction : Direction}
    (recorded : Recorded (body direction)) :
    Recorded (Encoder.repetition greed min max body direction) :=
  (call .counter).bind fun counter => (call .label).bind fun head =>
    (call .label).bind fun exit => (plain (.repeatStart counter) rfl).bind fun _ =>
      (call (.bind head)).bind fun _ =>
        (discard (call (.emit (.quantify greed min max counter exit)))).bind fun _ =>
          recorded.bind fun _ => (plain (.repeatEnd counter head) rfl).bind fun _ =>
            call (.bind exit)

theorem capture (group : UInt16) {body : Emitter} {direction : Direction}
    (recorded : ∀ direction, Recorded (body direction)) :
    Recorded (Encoder.capture group body direction) := by
  have begins : Recorded (Functor.discard (beginCapture group)) :=
    discard (call (.emit (.beginCapture group)))
  have ends : Recorded (Functor.discard (endCapture group)) :=
    discard (call (.emit (.endCapture group)))
  cases direction with
  | forward => exact begins.bind fun _ => (recorded .forward).bind fun _ => ends
  | reverse => exact ends.bind fun _ => (recorded .reverse).bind fun _ => begins

theorem lookaround {sight : Direction} (negated : Bool) {body : Emitter}
    (recorded : Recorded (body sight)) : Recorded (Encoder.lookaround sight negated body) := by
  cases negated with
  | true =>
      exact (call .label).bind fun exit => (plain (.save exit) rfl).bind fun _ =>
        recorded.bind fun _ => (plain (.clearThrough exit false) rfl).bind fun _ =>
          (plain .fail rfl).bind fun _ => call (.bind exit)
  | false =>
      exact (call .label).bind fun failure => (call .label).bind fun exit =>
        (plain (.save failure) rfl).bind fun _ => recorded.bind fun _ =>
          (plain (.clearThrough failure true) rfl).bind fun _ =>
            (plain (.jump exit) rfl).bind fun _ => (call (.bind failure)).bind fun _ =>
              (plain .fail rfl).bind fun _ => call (.bind exit)

end Recorded

theorem Scripted.recorded {action : Encode α} (scripted : Scripted action) :
    Recorded action := by
  induction scripted with
  | call call => exact .call call
  | get => exact fun encoder => ⟨_, .get encoder⟩
  | pure value => exact .pure value
  | throw fault => exact fun encoder => ⟨_, .throw fault encoder⟩
  | bind front back front_induction back_induction => exact front_induction.bind back_induction
  | rescue front back front_induction back_induction =>
      exact front_induction.rescue back_induction
  | sequence parts direction each induction => exact .sequence induction
  | alternation alternatives direction each induction => exact .alternation induction
  | repetition greed min max body direction scripted induction =>
      exact .repetition greed min max (induction direction)
  | capture group body direction scripted induction => exact .capture group induction
  | lookaround sight negated body scripted induction =>
      exact .lookaround negated (induction sight)

namespace Scripted

theorem discard {action : Encode α} (scripted : Scripted action) :
    Scripted (Functor.discard action) := by
  rw [discard_eq_bind]
  exact scripted.bind fun _ => pure ()

theorem emit (fragment : Fragment) (direction : Direction) :
    Scripted (fragment.emit direction) := by
  induction fragment using Fragment.induct generalizing direction with
  | literal text flags => exact discard (call (.emit (.matchString text direction flags)))
  | any flags => exact discard (call (.emit (.matchAny direction flags)))
  | ofClass runeClass flags negated =>
      exact discard (call (.emit (.matchClass runeClass direction flags negated)))
  | ofSet ranges flags negated =>
      exact discard (call (.emit (.matchSet ranges direction flags negated)))
  | backref group flags => exact discard (call (.emit (.matchBackref group direction flags)))
  | skip count => exact discard (call (.emit (.advance count direction)))
  | anchored anchor => exact discard (call (.emit (.plain (.assertAnchor anchor) rfl)))
  | sequence parts induction =>
      refine sequence (Fragment.emitters parts) direction fun part member => ?_
      rw [Fragment.emitters_eq_map] at member
      obtain ⟨fragment, inside, rfl⟩ := List.mem_map.mp member
      exact induction fragment inside
  | alternation alternatives induction =>
      refine alternation (Fragment.emitters alternatives) direction fun part member => ?_
      rw [Fragment.emitters_eq_map] at member
      obtain ⟨fragment, inside, rfl⟩ := List.mem_map.mp member
      exact induction fragment inside
  | repetition greed min max body induction =>
      exact repetition greed min max body.emit direction induction
  | capture group body induction => exact capture group body.emit direction induction
  | lookaround sight negated body induction => exact lookaround sight negated body.emit induction

end Scripted

end Encoder

end RegexMachine
