import RegexMachine.Proofs.Text.Automaton
import RegexMachine.Text.Octets

/-! # Decoding one rune

A decoded sequence is as long as its lead octet announces, holds no other lead
octet, and is decoded in the same way whatever follows it. -/

namespace RegexMachine

namespace Utf8

/-! ## Lead octets and continuation octets -/

theorem announcement?_lead {lead : UInt8} {count bits : Nat}
    (announced : announcement? lead = some (count, bits)) :
    isLead lead = true ∧ count ≤ 3 := by
  simp only [announcement?] at announced
  simp only [isLead, Bool.or_eq_true, decide_eq_true_eq]
  split at announced
  · cases announced
    omega
  · split at announced
    · cases announced
    · split at announced
      · cases announced
        omega
      · split at announced
        · cases announced
          omega
        · split at announced
          · cases announced
            omega
          · cases announced

theorem gather?_length_le {count : Nat} {bits rune : Rune} {list : List UInt8}
    (gathered : gather? count bits list = some rune) : count ≤ list.length := by
  induction count generalizing bits list with
  | zero => exact Nat.zero_le _
  | succ count induction =>
      obtain ⟨octet, rest, rfl, -, gathered⟩ := gather?_succ gathered
      exact Nat.succ_le_succ (induction gathered)

theorem gather?_not_lead {count : Nat} {bits rune : Rune} {list : List UInt8}
    (gathered : gather? count bits list = some rune) {index : Nat} {octet : UInt8}
    (inside : index < count) (found : list[index]? = some octet) :
    isLead octet = false := by
  induction count generalizing bits list index with
  | zero => omega
  | succ count induction =>
      obtain ⟨head, rest, rfl, continues, gathered⟩ := gather?_succ gathered
      cases index with
      | zero =>
          cases found
          exact continues
      | succ index => exact induction gathered (by omega) found

theorem gather?_take {count : Nat} (bits : Rune) {list : List UInt8} {length : Nat}
    (enough : count ≤ length) :
    gather? count bits (list.take length) = gather? count bits list := by
  induction count generalizing bits list length with
  | zero => rfl
  | succ count induction =>
      obtain ⟨length, rfl⟩ : ∃ rest, length = rest + 1 := ⟨length - 1, by omega⟩
      cases list with
      | nil => rfl
      | cons octet rest =>
          simp only [List.take_succ_cons, gather?]
          split
          · rfl
          · exact induction _ (by omega)

/-! ## Whole sequences -/

theorem decode?_eq_some_iff {list : List UInt8} {rune : Rune} {count : Nat} :
    decode? list = some (rune, count) ↔
      ∃ lead rest more bits, list = lead :: rest ∧ count = more + 1 ∧
        announcement? lead = some (more, bits) ∧ gather? more bits rest = some rune ∧
        rune.IsScalar ∧ length rune = more + 1 := by
  cases list with
  | nil => simp [decode?, decodeFrom]
  | cons lead rest =>
      rw [agrees lead rest]
      simp only [Option.bind_eq_some_iff, sequence?, Option.map_eq_some_iff,
        Option.filter_eq_some_iff, Fits, Prod.mk.injEq]
      constructor
      · intro decoded
        rcases decoded with ⟨⟨more, bits⟩, announced, _, ⟨gathered, whole⟩, rfl, rfl⟩
        exact ⟨lead, rest, more, bits, rfl, rfl, announced, gathered, of_decide_eq_true whole⟩
      · intro decoded
        rcases decoded with ⟨_, _, more, bits, same, rfl, announced, gathered, whole⟩
        cases same
        exact ⟨(more, bits), announced, rune, ⟨gathered, decide_eq_true whole⟩, rfl, rfl⟩

theorem decode?_length_le {list : List UInt8} {rune : Rune} {count : Nat}
    (decoded : decode? list = some (rune, count)) : count ≤ list.length := by
  rcases decode?_eq_some_iff.mp decoded with
    ⟨lead, rest, more, bits, rfl, rfl, -, gathered, -⟩
  have := gather?_length_le gathered
  simp only [List.length_cons]
  omega

theorem decode?_length_le_four {list : List UInt8} {rune : Rune} {count : Nat}
    (decoded : decode? list = some (rune, count)) : count ≤ 4 := by
  rcases decode?_eq_some_iff.mp decoded with
    ⟨lead, rest, more, bits, rfl, rfl, announced, -⟩
  have := (announcement?_lead announced).2
  omega

theorem decode?_isLead {list : List UInt8} {rune : Rune} {count : Nat}
    (decoded : decode? list = some (rune, count)) {index : Nat} {octet : UInt8}
    (inside : index < count) (found : list[index]? = some octet) :
    isLead octet = decide (index = 0) := by
  rcases decode?_eq_some_iff.mp decoded with
    ⟨lead, rest, more, bits, rfl, rfl, announced, gathered, -⟩
  cases index with
  | zero =>
      cases found
      simpa using (announcement?_lead announced).1
  | succ index => simpa using gather?_not_lead gathered (by omega) found

theorem decode?_take {list : List UInt8} {rune : Rune} {count length : Nat}
    (decoded : decode? list = some (rune, count)) (enough : count ≤ length) :
    decode? (list.take length) = some (rune, count) := by
  rcases decode?_eq_some_iff.mp decoded with
    ⟨lead, rest, more, bits, rfl, rfl, announced, gathered, whole⟩
  obtain ⟨length, rfl⟩ : ∃ rest, length = rest + 1 := ⟨length - 1, by omega⟩
  refine decode?_eq_some_iff.mpr
    ⟨lead, rest.take length, more, bits, rfl, rfl, announced, ?_, whole⟩
  rw [gather?_take bits (by omega)]
  exact gathered

theorem decode?_of_take {list : List UInt8} {rune : Rune} {count length : Nat}
    (decoded : decode? (list.take length) = some (rune, count)) :
    decode? list = some (rune, count) := by
  have inside := decode?_length_le decoded
  rcases decode?_eq_some_iff.mp decoded with
    ⟨lead, rest, more, bits, shape, rfl, announced, gathered, whole⟩
  cases list with
  | nil => simp at shape
  | cons head tail =>
      cases length with
      | zero => simp at shape
      | succ length =>
          rw [List.take_succ_cons, List.cons.injEq] at shape
          rcases shape with ⟨rfl, rfl⟩
          refine decode?_eq_some_iff.mpr
            ⟨head, tail, more, bits, rfl, rfl, announced, ?_, whole⟩
          rw [List.length_take, List.length_cons] at inside
          rw [← gathered, gather?_take bits (by omega)]

/-! ## Decoding what was encoded -/

theorem and_surrogateMask (rune : Nat) :
    rune &&& 0xFFFFF800 = rune / 2048 % 2 ^ 21 * 2048 := by
  have mask : 0xFFFFF800 = (2 ^ 21 - 1) <<< 11 := rfl
  have shifted : rune / 2048 % 2 ^ 21 * 2048 = ((rune >>> 11) &&& (2 ^ 21 - 1)) <<< 11 := by
    rw [Nat.and_two_pow_sub_one_eq_mod, Nat.shiftLeft_eq, Nat.shiftRight_eq_div_pow]
  rw [shifted, mask]
  apply Nat.eq_of_testBit_eq
  intro index
  simp only [Nat.testBit_and, Nat.testBit_shiftLeft, Nat.testBit_shiftRight]
  by_cases low : 11 ≤ index <;> simp [low]

/-- The surrogates are those that differ from the first of them in the lowest
eleven bits only. -/
theorem isScalar_iff {rune : Nat} :
    Rune.IsScalar rune ↔ ¬(0x110000 ≤ rune ∨ rune &&& 0xFFFFF800 = 0xD800) := by
  rw [and_surrogateMask]
  change (rune < 0xD800 ∨ 0xE000 ≤ rune ∧ rune ≤ 0x10FFFF) ↔ _
  omega

theorem length_groups (rune mark count : Nat) : (groups rune mark count).length = count := by
  induction count generalizing mark with
  | zero => rfl
  | succ count induction => rw [groups, List.length_cons, induction]

theorem groups_succ (width : Nat) {rune mark count : Nat} (marked : 2 ^ width ∣ mark)
    (fits : rune / 64 ^ count % 64 < 2 ^ width) :
    groups rune mark (count + 1) =
      UInt8.ofNat (mark + rune / 64 ^ count % 64) :: groups rune 0x80 count := by
  have base : 2 ^ (6 * count) = 64 ^ count := Nat.pow_mul 2 6 count
  have bits : (rune >>> (6 * count)) &&& 0x3F = rune / 64 ^ count % 64 := by
    rw [Nat.shiftRight_eq_div_pow, base]
    exact Nat.and_two_pow_sub_one_eq_mod _ 6
  obtain ⟨high, rfl⟩ := marked
  rw [groups, bits, Nat.or_comm, Nat.two_pow_add_eq_or_of_lt fits high]

theorem gather?_groups (bits rune count : Nat) (rest : List UInt8) :
    gather? count bits (groups rune 0x80 count ++ rest) =
      some (bits * 64 ^ count + rune % 64 ^ count) := by
  induction count generalizing bits with
  | zero => simp [gather?, Nat.mod_one]
  | succ count induction =>
      have octet : (UInt8.ofNat (0x80 + rune / 64 ^ count % 64)).toNat =
          0x80 + rune / 64 ^ count % 64 := by
        rw [UInt8.toNat_ofNat']
        omega
      have continues : isLead (UInt8.ofNat (0x80 + rune / 64 ^ count % 64)) = false := by
        simp only [isLead, octet, Bool.or_eq_false_iff, decide_eq_false_iff_not]
        omega
      have whole : (bits * 64 + rune / 64 ^ count % 64) * 64 ^ count + rune % 64 ^ count =
          bits * 64 ^ (count + 1) + rune % 64 ^ (count + 1) := by
        rw [Nat.mod_pow_succ, Nat.pow_succ', ← Nat.mul_assoc, Nat.add_mul,
          Nat.mul_comm (rune / 64 ^ count % 64)]
        omega
      rw [groups_succ 6 (by decide) (Nat.mod_lt _ (by decide)), List.cons_append, gather?,
        continues, octet, Nat.add_sub_cancel_left, ← whole]
      exact induction _

/-- The mark leaves the bits below it free. -/
theorem leadMark_dvd {more : Nat} (few : 0 < more ∧ more ≤ 3) :
    2 ^ (6 - more) ∣ leadMark (more + 1) := by
  obtain rfl | rfl | rfl : more = 1 ∨ more = 2 ∨ more = 3 := by omega
  all_goals decide

theorem announcement?_leadMark {more value : Nat} (few : 0 < more ∧ more ≤ 3)
    (fits : value < 2 ^ (6 - more)) :
    announcement? (UInt8.ofNat (leadMark (more + 1) + value)) = some (more, value) := by
  obtain rfl | rfl | rfl : more = 1 ∨ more = 2 ∨ more = 3 := by omega
  all_goals
    simp only [announcement?, leadMark, UInt8.toNat_ofNat', Nat.reduceAdd, Nat.reduceSub,
      Nat.reducePow, Nat.reduceShiftLeft, Nat.reduceAnd] at fits ⊢
    split_ifs
    any_goals omega
  · rw [show (192 + value) % 256 - 192 = value by omega]
  · rw [show (224 + value) % 256 - 224 = value by omega]
  · rw [show (240 + value) % 256 - 240 = value by omega]

theorem encode_of_isScalar {rune : Nat} (scalar : Rune.IsScalar rune) (wide : 0x80 ≤ rune) :
    encode rune = groups rune (leadMark (length rune)) (length rune) := by
  rw [encode, if_neg (Nat.not_lt.mpr wide), if_neg (isScalar_iff.mp scalar)]

theorem encode_of_not_isScalar {rune : Nat} (wrong : ¬Rune.IsScalar rune) :
    encode rune = encode Rune.replacement := by
  have wide : ¬rune < 0x80 := fun low => wrong (.inl (Nat.lt_trans low (by decide)))
  rw [encode, if_neg wide, if_pos (not_not.mp (isScalar_iff.not.mp wrong))]
  decide +kernel

theorem length_encode {rune : Nat} (scalar : Rune.IsScalar rune) :
    (encode rune).length = length rune := by
  by_cases narrow : rune < 0x80
  · rw [encode, if_pos narrow, length, if_pos narrow]
    rfl
  · rw [encode_of_isScalar scalar (by omega), length_groups]

/-- The sequence is just long enough for the bits above the continuation octets to
stand below the mark of the lead octet. -/
theorem length_bounds {rune : Nat} (scalar : Rune.IsScalar rune) (wide : 0x80 ≤ rune) :
    ∃ more, length rune = more + 1 ∧ (0 < more ∧ more ≤ 3) ∧
      rune / 64 ^ more < 2 ^ (6 - more) := by
  change rune < 0xD800 ∨ 0xE000 ≤ rune ∧ rune ≤ 0x10FFFF at scalar
  change ∃ more : Nat, (if rune < 0x80 then 1 else if rune < 0x800 then 2
    else if rune < 0x10000 then 3 else 4) = more + 1 ∧ _
  split_ifs
  · omega
  · exact ⟨1, by omega⟩
  · exact ⟨2, by omega⟩
  · exact ⟨3, by omega⟩

theorem encode_eq_cons {rune : Nat} (scalar : Rune.IsScalar rune) (wide : 0x80 ≤ rune) :
    ∃ more, length rune = more + 1 ∧ (0 < more ∧ more ≤ 3) ∧
      rune / 64 ^ more < 2 ^ (6 - more) ∧
      encode rune =
        UInt8.ofNat (leadMark (more + 1) + rune / 64 ^ more) :: groups rune 0x80 more := by
  rcases length_bounds scalar wide with ⟨more, size, few, high⟩
  have single : rune / 64 ^ more % 64 = rune / 64 ^ more := by
    have : 2 ^ (6 - more) ≤ 64 := Nat.pow_le_pow_right (by decide) (Nat.sub_le 6 more)
    exact Nat.mod_eq_of_lt (by omega)
  have first := groups_succ _ (leadMark_dvd few) (single.trans_lt high)
  rw [single] at first
  exact ⟨more, size, few, high, by rw [encode_of_isScalar scalar wide, size, first]⟩

theorem decode?_encode_append {rune : Nat} (scalar : Rune.IsScalar rune) (rest : List UInt8) :
    decode? (encode rune ++ rest) = some (rune, (encode rune).length) := by
  rw [length_encode scalar, decode?_eq_some_iff]
  by_cases narrow : rune < 0x80
  · have size : length rune = 1 := if_pos narrow
    refine ⟨UInt8.ofNat rune, rest, 0, rune, ?_, size, ?_, rfl, scalar, size⟩
    · rw [encode, if_pos narrow]
      rfl
    · simp only [announcement?, UInt8.toNat_ofNat']
      rw [if_pos (by omega), Nat.mod_eq_of_lt (by omega)]
  · rcases encode_eq_cons scalar (by omega) with ⟨more, size, few, high, shape⟩
    refine ⟨_, groups rune 0x80 more ++ rest, more, _, ?_, size,
      announcement?_leadMark few high, ?_, scalar, size⟩
    · rw [shape]
      rfl
    · rw [gather?_groups, Nat.div_add_mod']

end Utf8

end RegexMachine
