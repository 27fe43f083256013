import RegexMachine.Pattern.Fragment

/-! # Parts of a fragment

A fragment as a tree: induction over it, and the parts of which it is made at
any depth. -/

namespace RegexMachine

namespace Fragment

/-- What holds of a fragment whenever it holds of its parts holds of every
fragment. -/
theorem induct {motive : Fragment → Prop}
    (literal : ∀ text flags, motive (literal text flags))
    (any : ∀ flags, motive (any flags))
    (ofClass : ∀ runeClass flags negated, motive (ofClass runeClass flags negated))
    (ofSet : ∀ ranges flags negated, motive (ofSet ranges flags negated))
    (backref : ∀ group flags, motive (backref group flags))
    (skip : ∀ count, motive (skip count))
    (anchored : ∀ anchor, motive (anchored anchor))
    (sequence : ∀ parts, (∀ part ∈ parts, motive part) → motive (sequence parts))
    (alternation : ∀ alternatives, (∀ alternative ∈ alternatives, motive alternative) →
      motive (alternation alternatives))
    (repetition : ∀ greed min max body, motive body →
      motive (repetition greed min max body))
    (capture : ∀ group body, motive body → motive (capture group body))
    (lookaround : ∀ sight negated body, motive body →
      motive (lookaround sight negated body)) :
    ∀ fragment, motive fragment
  | .literal text flags => literal text flags
  | .any flags => any flags
  | .ofClass runeClass flags negated => ofClass runeClass flags negated
  | .ofSet ranges flags negated => ofSet ranges flags negated
  | .backref group flags => backref group flags
  | .skip count => skip count
  | .anchored anchor => anchored anchor
  | .sequence parts => sequence parts fun part _ =>
      induct literal any ofClass ofSet backref skip anchored sequence alternation
        repetition capture lookaround part
  | .alternation alternatives => alternation alternatives fun alternative _ =>
      induct literal any ofClass ofSet backref skip anchored sequence alternation
        repetition capture lookaround alternative
  | .repetition greed min max body => repetition greed min max body
      (induct literal any ofClass ofSet backref skip anchored sequence alternation
        repetition capture lookaround body)
  | .capture group body => capture group body
      (induct literal any ofClass ofSet backref skip anchored sequence alternation
        repetition capture lookaround body)
  | .lookaround sight negated body => lookaround sight negated body
      (induct literal any ofClass ofSet backref skip anchored sequence alternation
        repetition capture lookaround body)
termination_by fragment => sizeOf fragment

/-! ## Parts at any depth -/

mutual

def subfragments : Fragment → List Fragment
  | sequence parts => sequence parts :: subfragmentsEach parts
  | alternation alternatives => alternation alternatives :: subfragmentsEach alternatives
  | repetition greed min max body => repetition greed min max body :: subfragments body
  | capture group body => capture group body :: subfragments body
  | lookaround sight negated body => lookaround sight negated body :: subfragments body
  | leaf => [leaf]

def subfragmentsEach : List Fragment → List Fragment
  | [] => []
  | fragment :: rest => subfragments fragment ++ subfragmentsEach rest

end

theorem mem_subfragmentsEach {fragments : List Fragment} {part : Fragment} :
    part ∈ subfragmentsEach fragments ↔
      ∃ fragment ∈ fragments, part ∈ fragment.subfragments := by
  induction fragments with
  | nil => simp [subfragmentsEach]
  | cons fragment rest induction => simp [subfragmentsEach, induction]

def Throughout (fragment : Fragment) (test : Fragment → Prop) : Prop :=
  ∀ part ∈ fragment.subfragments, test part

private theorem throughoutEach {test : Fragment → Prop} {fragments : List Fragment}
    (each : ∀ part ∈ fragments, part.Throughout test) :
    ∀ part ∈ subfragmentsEach fragments, test part := by
  intro part member
  obtain ⟨fragment, inside, within⟩ := mem_subfragmentsEach.mp member
  exact each fragment inside part within

theorem throughout_sequence {test : Fragment → Prop} {fragments : List Fragment}
    (here : test (sequence fragments))
    (each : ∀ part ∈ fragments, part.Throughout test) :
    (sequence fragments).Throughout test :=
  List.forall_mem_cons.mpr ⟨here, throughoutEach each⟩

theorem throughout_alternation {test : Fragment → Prop} {fragments : List Fragment}
    (here : test (alternation fragments))
    (each : ∀ part ∈ fragments, part.Throughout test) :
    (alternation fragments).Throughout test :=
  List.forall_mem_cons.mpr ⟨here, throughoutEach each⟩

namespace Throughout

variable {test other : Fragment → Prop} {fragment body : Fragment} {fragments : List Fragment}

theorem here (all : fragment.Throughout test) : test fragment := by
  apply all
  cases fragment <;> exact List.mem_cons_self

theorem imp (weaker : ∀ part, test part → other part) (all : fragment.Throughout test) :
    fragment.Throughout other := fun part member => weaker part (all part member)

theorem of_sequence (all : (sequence fragments).Throughout test) :
    ∀ part ∈ fragments, part.Throughout test := fun _ inside part member =>
  all part (List.mem_cons_of_mem _ (mem_subfragmentsEach.mpr ⟨_, inside, member⟩))

theorem of_alternation (all : (alternation fragments).Throughout test) :
    ∀ alternative ∈ fragments, alternative.Throughout test := fun _ inside part member =>
  all part (List.mem_cons_of_mem _ (mem_subfragmentsEach.mpr ⟨_, inside, member⟩))

theorem of_repetition {greed : Greed} {min max : UInt32}
    (all : (repetition greed min max body).Throughout test) : body.Throughout test :=
  fun part member => all part (List.mem_cons_of_mem _ member)

theorem of_capture {group : UInt16} (all : (capture group body).Throughout test) :
    body.Throughout test :=
  fun part member => all part (List.mem_cons_of_mem _ member)

theorem of_lookaround {sight : Direction} {negated : Bool}
    (all : (lookaround sight negated body).Throughout test) : body.Throughout test :=
  fun part member => all part (List.mem_cons_of_mem _ member)

end Throughout

theorem emitters_eq_map [CharacterData] (fragments : List Fragment) :
    emitters fragments = fragments.map emit := by
  induction fragments with
  | nil => rfl
  | cons fragment rest induction => exact congrArg (fragment.emit :: ·) induction

end Fragment

end RegexMachine
