import Mathlib.Data.FinEnum
import RegexMachine.Text.Utf8

/-! # What the automaton accepts

A lead octet announces how many continuation octets follow and carries the
first bits of the rune; every continuation octet carries six more. The
automaton accepts such a sequence just if its rune is a scalar value and no
shorter sequence holds it. The table of classes is read once, octet by octet;
what follows is arithmetic on the ranges that the classes stand for. -/

namespace RegexMachine

namespace Utf8

/-! ## Sequences as announced -/

/-- The number of continuation octets that a lead octet announces, and the
bits of the rune that it carries itself. -/
def announcement? (lead : UInt8) : Option (Nat × Rune) :=
  let value := lead.toNat
  if value < 0x80 then some (0, value)
  else if value < 0xC0 then none
  else if value < 0xE0 then some (1, value - 0xC0)
  else if value < 0xF0 then some (2, value - 0xE0)
  else if value < 0xF8 then some (3, value - 0xF0)
  else none

def gather? : Nat → Rune → List UInt8 → Option Rune
  | 0, rune, _ => some rune
  | _ + 1, _, [] => none
  | count + 1, rune, octet :: rest =>
      if isLead octet then none
      else gather? count (rune * 64 + (octet.toNat - 0x80)) rest

theorem gather?_succ {count bits rune : Nat} {list : List UInt8}
    (gathered : gather? (count + 1) bits list = some rune) :
    ∃ octet rest, list = octet :: rest ∧ isLead octet = false ∧
      gather? count (bits * 64 + (octet.toNat - 0x80)) rest = some rune := by
  cases list with
  | nil => simp [gather?] at gathered
  | cons octet rest =>
      rw [gather?] at gathered
      split at gathered
      · cases gathered
      · next continues =>
          exact ⟨octet, rest, rfl, Bool.eq_false_iff.mpr continues, gathered⟩

theorem range_of_not_isLead {octet : UInt8} (continues : isLead octet = false) :
    0x80 ≤ octet.toNat ∧ octet.toNat < 0xC0 := by
  simp only [isLead, Bool.or_eq_false_iff, decide_eq_false_iff_not] at continues
  omega

theorem gather?_bounds {count bits rune : Nat} {list : List UInt8}
    (gathered : gather? count bits list = some rune) :
    bits * 64 ^ count ≤ rune ∧ rune < (bits + 1) * 64 ^ count := by
  induction count generalizing bits list with
  | zero =>
      cases gathered
      simp
  | succ count induction =>
      obtain ⟨octet, rest, rfl, continues, gathered⟩ := gather?_succ gathered
      have bounds := induction gathered
      have range := range_of_not_isLead continues
      have low : bits * 64 ≤ bits * 64 + (octet.toNat - 0x80) := Nat.le_add_right _ _
      have high : bits * 64 + (octet.toNat - 0x80) + 1 ≤ (bits + 1) * 64 := by
        rw [Nat.add_mul]
        omega
      rw [Nat.pow_succ', ← Nat.mul_assoc, ← Nat.mul_assoc]
      exact ⟨Nat.le_trans (Nat.mul_le_mul_right _ low) bounds.1,
        Nat.lt_of_lt_of_le bounds.2 (Nat.mul_le_mul_right _ high)⟩

/-- The rune may stand in a sequence of so many octets, and in no shorter one. -/
def Fits (count : Nat) (rune : Rune) : Prop :=
  rune.IsScalar ∧ length rune = count

instance (count : Nat) (rune : Rune) : Decidable (Fits count rune) :=
  inferInstanceAs (Decidable (_ ∧ _))

theorem fits_iff {count rune : Nat} : Fits count rune ↔
    (rune < 0xD800 ∨ 0xE000 ≤ rune ∧ rune < 0x110000) ∧
      (if rune < 0x80 then 1 else if rune < 0x800 then 2
        else if rune < 0x10000 then 3 else 4) = count :=
  and_congr_left' (or_congr_right (and_congr_right' Nat.lt_succ_iff.symm))

theorem fits_one {rune : Nat} : Fits 1 rune ↔ rune < 0x80 := by
  rw [fits_iff]
  split_ifs <;> omega

theorem fits_two {rune : Nat} : Fits 2 rune ↔ 0x80 ≤ rune ∧ rune < 0x800 := by
  rw [fits_iff]
  split_ifs <;> omega

theorem fits_three {rune : Nat} :
    Fits 3 rune ↔ 0x800 ≤ rune ∧ rune < 0x10000 ∧ (rune < 0xD800 ∨ 0xE000 ≤ rune) := by
  rw [fits_iff]
  split_ifs <;> omega

theorem fits_four {rune : Nat} : Fits 4 rune ↔ 0x10000 ≤ rune ∧ rune < 0x110000 := by
  rw [fits_iff]
  split_ifs <;> omega

section

variable {more count bits : Nat} {rest : List UInt8}

theorem filter_gather?_of_fits
    (fits : ∀ rune : Nat, bits * 64 ^ more ≤ rune → rune < (bits + 1) * 64 ^ more →
      Fits count rune) :
    (gather? more bits rest).filter (Fits count) = gather? more bits rest := by
  cases gathered : gather? more bits rest with
  | none => rfl
  | some rune =>
      have bounds := gather?_bounds gathered
      exact Option.filter_some_pos (decide_eq_true (fits rune bounds.1 bounds.2))

theorem filter_gather?_of_not_fits
    (unfit : ∀ rune : Nat, bits * 64 ^ more ≤ rune → rune < (bits + 1) * 64 ^ more →
      ¬Fits count rune) :
    (gather? more bits rest).filter (Fits count) = none := by
  rw [Option.filter_eq_none_iff]
  intro rune gathered
  have bounds := gather?_bounds gathered
  exact fun fits => unfit rune bounds.1 bounds.2 (of_decide_eq_true fits)

end

def sequence? (more : Nat) (bits : Rune) (rest : List UInt8) : Option (Rune × Nat) :=
  ((gather? more bits rest).filter (Fits (more + 1))).map (·, more + 1)

/-! ## The tables -/

structure ClassRange where
  low : Nat
  high : Nat
  column : Nat

def classRanges : List ClassRange := [
  ⟨0x00, 0x80, 0⟩, ⟨0x80, 0x90, 1⟩, ⟨0x90, 0xA0, 9⟩, ⟨0xA0, 0xC0, 7⟩,
  ⟨0xC0, 0xC2, 8⟩, ⟨0xC2, 0xE0, 2⟩, ⟨0xE0, 0xE1, 10⟩, ⟨0xE1, 0xED, 3⟩,
  ⟨0xED, 0xEE, 4⟩, ⟨0xEE, 0xF0, 3⟩, ⟨0xF0, 0xF1, 11⟩, ⟨0xF1, 0xF4, 6⟩,
  ⟨0xF4, 0xF5, 5⟩, ⟨0xF5, 0x100, 8⟩]

theorem exists_classRange : ∀ octet : UInt8, ∃ range ∈ classRanges,
    range.low ≤ octet.toNat ∧ octet.toNat < range.high ∧ classOf octet = range.column := by
  decide +kernel

def awaiting : Nat → Nat
  | 0 => accepting
  | 1 => 24
  | 2 => 36
  | _ => 84

def Passes (state low high more : Nat) : Prop :=
  ∀ octet : UInt8, successor state octet =
    if low ≤ octet.toNat ∧ octet.toNat < high then awaiting more else rejecting

/-- It suffices to look at every range of a class once. -/
theorem passes_of_ranges {state low high more : Nat}
    (row : ∀ range ∈ classRanges,
      if low ≤ range.low ∧ range.high ≤ high then
        successorBy state range.column = awaiting more
      else (range.high ≤ low ∨ high ≤ range.low) ∧
        successorBy state range.column = rejecting) :
    Passes state low high more := by
  intro octet
  obtain ⟨range, member, lower, upper, column⟩ := exists_classRange octet
  have entry := row range member
  rw [successor, column]
  split at entry
  · rw [entry, if_pos (by omega)]
  · rw [entry.2, if_neg (by omega)]

theorem passes_awaiting {count : Nat} (few : count < 3) :
    Passes (awaiting (count + 1)) 0x80 0xC0 count := by
  obtain rfl | rfl | rfl : count = 0 ∨ count = 1 ∨ count = 2 := by omega
  all_goals exact passes_of_ranges (by decide +kernel)

/-- Behind E0, where the rune must not fit into two octets. -/
theorem passes_long_three : Passes 48 0xA0 0xC0 1 :=
  passes_of_ranges (by decide +kernel)

/-- Behind ED, where the rune must not be a surrogate. -/
theorem passes_low_three : Passes 60 0x80 0xA0 1 :=
  passes_of_ranges (by decide +kernel)

/-- Behind F0, where the rune must not fit into three octets. -/
theorem passes_long_four : Passes 72 0x90 0xC0 2 :=
  passes_of_ranges (by decide +kernel)

/-- Behind F4, where the rune must not exceed the last code point. -/
theorem passes_low_four : Passes 96 0x80 0x90 2 :=
  passes_of_ranges (by decide +kernel)

/-! ## Runs -/

theorem absorb_awaiting {state bits : Nat} {octet : UInt8} (inner : state ≠ accepting)
    (continues : 0x80 ≤ octet.toNat ∧ octet.toNat < 0xC0) :
    absorb state bits octet = bits * 64 + (octet.toNat - 0x80) := by
  have low : octet.toNat &&& 0x3F = octet.toNat - 0x80 := by
    rw [show (0x3F : Nat) = 2 ^ 6 - 1 from rfl, Nat.and_two_pow_sub_one_eq_mod]
    omega
  rw [absorb, if_neg inner, low, Nat.or_comm,
    ← Nat.shiftLeft_add_eq_or_of_lt (by omega), Nat.shiftLeft_eq]

theorem gather?_cons {count bits : Nat} {octet : UInt8} {rest : List UInt8} :
    gather? (count + 1) bits (octet :: rest) =
      if 0x80 ≤ octet.toNat ∧ octet.toNat < 0xC0 then
        gather? count (bits * 64 + (octet.toNat - 0x80)) rest
      else none := by
  rw [gather?, ← ite_not]
  refine if_congr ?_ rfl rfl
  simp only [isLead, Bool.or_eq_true, decide_eq_true_eq]
  omega

theorem awaiting_ne_rejecting : ∀ count, awaiting count ≠ rejecting
  | 0 | 1 | 2 => by decide
  | _ + 3 => show (84 : Nat) ≠ 12 by decide

theorem awaiting_succ_ne_accepting : ∀ count, awaiting (count + 1) ≠ accepting
  | 0 | 1 => by decide
  | _ + 2 => show (84 : Nat) ≠ 0 by decide

theorem decodeFrom_cons {state low high more bits taken : Nat} {octet : UInt8}
    {rest : List UInt8} (passes : Passes state low high more) (inner : state ≠ accepting)
    (lowest : 0x80 ≤ low) (highest : high ≤ 0xC0) :
    decodeFrom state bits taken (octet :: rest) =
      if low ≤ octet.toNat ∧ octet.toNat < high then
        if awaiting more = accepting then
          some (bits * 64 + (octet.toNat - 0x80), taken + 1)
        else
          decodeFrom (awaiting more) (bits * 64 + (octet.toNat - 0x80)) (taken + 1) rest
      else none := by
  rw [decodeFrom, passes]
  by_cases within : low ≤ octet.toNat ∧ octet.toNat < high
  · rw [absorb_awaiting inner (by omega)]
    simp only [if_pos within, if_neg (awaiting_ne_rejecting more)]
  · simp only [if_neg within]
    rfl

theorem decodeFrom_awaiting {count : Nat} (few : count < 3) (bits taken : Nat)
    (list : List UInt8) :
    decodeFrom (awaiting (count + 1)) bits taken list =
      (gather? (count + 1) bits list).map (·, taken + (count + 1)) := by
  induction count generalizing bits taken list with
  | zero =>
      cases list with
      | nil => rfl
      | cons octet rest =>
          rw [decodeFrom_cons (passes_awaiting few) (by decide) (by decide) (by decide),
            gather?_cons]
          split <;> rfl
  | succ count induction =>
      cases list with
      | nil => rfl
      | cons octet rest =>
          rw [decodeFrom_cons (passes_awaiting few) (awaiting_succ_ne_accepting _)
            (by decide) (by decide), gather?_cons, if_neg (awaiting_succ_ne_accepting count)]
          split
          · rw [induction (by omega), Nat.add_assoc, Nat.add_comm 1]
          · rfl

/-- Behind a lead octet that leaves the range of the next octet to the bits that
both carry. -/
theorem decodeFrom_restricted {state low high more bits : Nat} {list : List UInt8}
    (passes : Passes state low high (more + 1)) (inner : state ≠ accepting) (few : more < 3)
    (lowest : 0x80 ≤ low) (highest : high ≤ 0xC0)
    (fits : ∀ octet rune : Nat, 0x80 ≤ octet → octet < 0xC0 →
      (bits * 64 + (octet - 0x80)) * 64 ^ (more + 1) ≤ rune →
      rune < (bits * 64 + (octet - 0x80) + 1) * 64 ^ (more + 1) →
        (Fits (more + 3) rune ↔ low ≤ octet ∧ octet < high)) :
    decodeFrom state bits 1 list = sequence? (more + 2) bits list := by
  cases list with
  | nil => rfl
  | cons octet rest =>
      rw [decodeFrom_cons passes inner lowest highest, sequence?, gather?_cons,
        if_neg (awaiting_succ_ne_accepting more)]
      by_cases continues : 0x80 ≤ octet.toNat ∧ octet.toNat < 0xC0
      · rw [if_pos continues]
        have fits := fits octet.toNat
        split
        · next within =>
            rw [decodeFrom_awaiting few, filter_gather?_of_fits fun rune below above =>
              (fits rune continues.1 continues.2 below above).mpr within]
            congr 2
            funext rune
            congr 1
            omega
        · next outside =>
            rw [filter_gather?_of_not_fits fun rune below above found =>
              outside ((fits rune continues.1 continues.2 below above).mp found)]
            rfl
      · rw [if_neg continues, if_neg (by omega)]
        rfl

/-! ## Lead octets -/

theorem absorb_accepting {lead : UInt8} {column bits : Nat} (found : classOf lead = column)
    (few : column < 8) (left : lead.toNat % 2 ^ (8 - column) = bits) :
    absorb accepting 0 lead = bits := by
  have mask : ∀ shift < 8, 0xFF >>> shift = 2 ^ (8 - shift) - 1 := by decide
  rw [absorb, if_pos rfl, found, mask _ few, Nat.and_two_pow_sub_one_eq_mod, left]

theorem absorb_accepting_eq_zero {lead : UInt8} {column : Nat} (found : classOf lead = column)
    (cut : 0xFF >>> column = 0) : absorb accepting 0 lead = 0 := by
  rw [absorb, if_pos rfl, found, cut, Nat.and_zero]

theorem announcement?_one {lead : UInt8} (high : lead.toNat < 0x80) :
    announcement? lead = some (0, lead.toNat) := by
  simp only [announcement?]
  rw [if_pos high]

theorem announcement?_continuation {octet : UInt8} (low : 0x80 ≤ octet.toNat)
    (high : octet.toNat < 0xC0) : announcement? octet = none := by
  simp only [announcement?]
  rw [if_neg (by omega), if_pos high]

theorem announcement?_two {lead : UInt8} {bits : Nat} (low : 0xC0 ≤ lead.toNat)
    (high : lead.toNat < 0xE0) (left : lead.toNat - 0xC0 = bits) :
    announcement? lead = some (1, bits) := by
  simp only [announcement?]
  rw [if_neg (by omega), if_neg (by omega), if_pos high, left]

theorem announcement?_three {lead : UInt8} {bits : Nat} (low : 0xE0 ≤ lead.toNat)
    (high : lead.toNat < 0xF0) (left : lead.toNat - 0xE0 = bits) :
    announcement? lead = some (2, bits) := by
  simp only [announcement?]
  rw [if_neg (by omega), if_neg (by omega), if_neg (by omega), if_pos high, left]

theorem announcement?_four {lead : UInt8} {bits : Nat} (low : 0xF0 ≤ lead.toNat)
    (high : lead.toNat < 0xF8) (left : lead.toNat - 0xF0 = bits) :
    announcement? lead = some (3, bits) := by
  simp only [announcement?]
  rw [if_neg (by omega), if_neg (by omega), if_neg (by omega), if_neg (by omega), if_pos high,
    left]

theorem announcement?_beyond {lead : UInt8} (low : 0xF8 ≤ lead.toNat) :
    announcement? lead = none := by
  simp only [announcement?]
  rw [if_neg (by omega), if_neg (by omega), if_neg (by omega), if_neg (by omega),
    if_neg (by omega)]

/-- What the automaton makes of the octets is what they hold as announced. -/
def Agrees (lead : UInt8) (rest : List UInt8) : Prop :=
  decode? (lead :: rest) =
    (announcement? lead).bind fun part => sequence? part.1 part.2 rest

section

variable {lead : UInt8} {rest : List UInt8} {more bits : Nat}

theorem agrees_of_accepting (opens : successor accepting lead = accepting)
    (absorbed : absorb accepting 0 lead = bits)
    (announced : announcement? lead = some (0, bits)) (fits : Fits 1 bits) :
    Agrees lead rest := by
  rw [Agrees, announced]
  simp [decode?, decodeFrom, opens, absorbed, sequence?, gather?, fits]

theorem agrees_of_stray (opens : successor accepting lead = rejecting)
    (announced : announcement? lead = none) : Agrees lead rest := by
  rw [Agrees, announced]
  simp only [decode?, decodeFrom, opens]
  rfl

theorem agrees_of_rejecting (opens : successor accepting lead = rejecting)
    (announced : announcement? lead = some (more, bits))
    (unfit : ∀ rune : Nat, bits * 64 ^ more ≤ rune → rune < (bits + 1) * 64 ^ more →
      ¬Fits (more + 1) rune) : Agrees lead rest := by
  rw [Agrees, announced, Option.bind_some, sequence?.eq_def, filter_gather?_of_not_fits unfit]
  simp only [decode?, decodeFrom, opens]
  rfl

theorem agrees_of_awaiting (few : more < 3)
    (opens : successor accepting lead = awaiting (more + 1))
    (absorbed : absorb accepting 0 lead = bits)
    (announced : announcement? lead = some (more + 1, bits))
    (fits : ∀ rune : Nat, bits * 64 ^ (more + 1) ≤ rune →
      rune < (bits + 1) * 64 ^ (more + 1) → Fits (more + 2) rune) :
    Agrees lead rest := by
  rw [Agrees, announced, Option.bind_some, sequence?.eq_def, filter_gather?_of_fits fits,
    decode?]
  simp only [decodeFrom, opens, if_neg (awaiting_succ_ne_accepting more),
    if_neg (awaiting_ne_rejecting _), absorbed]
  rw [decodeFrom_awaiting few, Nat.add_comm]

theorem agrees_of_restricted {state low high : Nat} (few : more < 3)
    (opens : successor accepting lead = state) (inner : state ≠ accepting)
    (undecided : state ≠ rejecting) (passes : Passes state low high (more + 1))
    (lowest : 0x80 ≤ low) (highest : high ≤ 0xC0)
    (absorbed : absorb accepting 0 lead = bits)
    (announced : announcement? lead = some (more + 2, bits))
    (fits : ∀ octet rune : Nat, 0x80 ≤ octet → octet < 0xC0 →
      (bits * 64 + (octet - 0x80)) * 64 ^ (more + 1) ≤ rune →
      rune < (bits * 64 + (octet - 0x80) + 1) * 64 ^ (more + 1) →
        (Fits (more + 3) rune ↔ low ≤ octet ∧ octet < high)) :
    Agrees lead rest := by
  rw [Agrees, announced, Option.bind_some, decode?]
  simp only [decodeFrom, opens, if_neg inner, if_neg undecided, absorbed]
  exact decodeFrom_restricted passes inner few lowest highest fits

end

theorem agrees (lead : UInt8) (rest : List UInt8) : Agrees lead rest := by
  obtain ⟨range, member, lower, upper, column⟩ := exists_classRange lead
  have opens : successor accepting lead = successorBy accepting range.column := by
    rw [successor, column]
  simp only [classRanges, List.mem_cons, List.not_mem_nil, or_false] at member
  rcases member with rfl | rfl | rfl | rfl | rfl | rfl | rfl | rfl | rfl | rfl | rfl | rfl |
    rfl | rfl
  all_goals simp only at lower upper column
  -- one octet
  · exact agrees_of_accepting opens
      (absorb_accepting column (by decide) (Nat.mod_eq_of_lt (by omega)))
      (announcement?_one upper) (fits_one.mpr upper)
  -- continuation octets
  · exact agrees_of_stray opens (announcement?_continuation (by omega) (by omega))
  · exact agrees_of_stray opens (announcement?_continuation (by omega) (by omega))
  · exact agrees_of_stray opens (announcement?_continuation (by omega) (by omega))
  -- two octets, of which the lead octets C0 and C1 hold too little
  · refine agrees_of_rejecting opens (announcement?_two (by omega) (by omega) rfl)
      fun rune below above fits => ?_
    rw [fits_two] at fits
    omega
  · refine agrees_of_awaiting (by decide : 0 < 3) opens
      (absorb_accepting column (by decide) ?_) (announcement?_two (by omega) upper rfl)
      fun rune below above => fits_two.mpr (by omega)
    change lead.toNat % 64 = _
    omega
  -- three octets
  · refine agrees_of_restricted (by decide : 0 < 3) opens (by decide) (by decide)
      passes_long_three (by decide) (by decide) (absorb_accepting_eq_zero column rfl)
      (announcement?_three lower (by omega) (by omega)) ?_
    intro octet rune low high below above
    rw [fits_three]
    omega
  · refine agrees_of_awaiting (by decide : 1 < 3) opens
      (absorb_accepting column (by decide) ?_) (announcement?_three (by omega) (by omega) rfl)
      fun rune below above => fits_three.mpr (by omega)
    change lead.toNat % 32 = _
    omega
  · refine agrees_of_restricted (by decide : 0 < 3) opens (by decide) (by decide)
      passes_low_three (by decide) (by decide) (absorb_accepting column (by decide) ?_)
      (announcement?_three (by omega) (by omega) rfl) ?_
    · change lead.toNat % 16 = _
      omega
    · intro octet rune low high below above
      rw [fits_three]
      omega
  · refine agrees_of_awaiting (by decide : 1 < 3) opens
      (absorb_accepting column (by decide) ?_) (announcement?_three (by omega) (by omega) rfl)
      fun rune below above => fits_three.mpr (by omega)
    change lead.toNat % 32 = _
    omega
  -- four octets
  · refine agrees_of_restricted (by decide : 1 < 3) opens (by decide) (by decide)
      passes_long_four (by decide) (by decide) (absorb_accepting_eq_zero column rfl)
      (announcement?_four lower (by omega) (by omega)) ?_
    intro octet rune low high below above
    rw [fits_four]
    omega
  · refine agrees_of_awaiting (by decide : 2 < 3) opens
      (absorb_accepting column (by decide) ?_) (announcement?_four (by omega) (by omega) rfl)
      fun rune below above => fits_four.mpr (by omega)
    change lead.toNat % 4 = _
    omega
  · refine agrees_of_restricted (by decide : 1 < 3) opens (by decide) (by decide)
      passes_low_four (by decide) (by decide) (absorb_accepting column (by decide) ?_)
      (announcement?_four (by omega) (by omega) rfl) ?_
    · change lead.toNat % 8 = _
      omega
    · intro octet rune low high below above
      rw [fits_four]
      omega
  -- beyond the last code point
  · by_cases four : lead.toNat < 0xF8
    · refine agrees_of_rejecting opens (announcement?_four (by omega) four rfl)
        fun rune below above fits => ?_
      rw [fits_four] at fits
      omega
    · exact agrees_of_stray opens (announcement?_beyond (by omega))

end Utf8

end RegexMachine
