import RegexMachine.Proofs.Text.Units

/-! # Decoding is the inverse of encoding

A sequence is accepted just if it is the encoding of the rune it is read as. So
the octets begin with at most one encoding, and if they begin with none, the
first of them stands alone. -/

namespace RegexMachine

namespace Utf8

variable {list rest : List UInt8} {lead : UInt8} {rune bits more count : Nat}

theorem take_of_gather? (gathered : gather? count bits list = some rune) :
    list.take count = groups rune 0x80 count := by
  induction count generalizing bits list with
  | zero => rfl
  | succ count induction =>
      obtain ⟨octet, rest, rfl, continues, gathered⟩ := gather?_succ gathered
      have bounds := gather?_bounds gathered
      have range := range_of_not_isLead continues
      have high : rune / 64 ^ count = bits * 64 + (octet.toNat - 0x80) :=
        Nat.div_eq_of_lt_le bounds.1 bounds.2
      have marked : 0x80 + rune / 64 ^ count % 64 = octet.toNat := by omega
      rw [List.take_succ_cons, induction gathered,
        groups_succ 6 (by decide) (Nat.mod_lt _ (by decide)), marked, UInt8.ofNat_toNat]

theorem lead_of_announcement? (announced : announcement? lead = some (more, bits)) :
    lead.toNat = if more = 0 then bits else leadMark (more + 1) + bits := by
  have two : leadMark (1 + 1) = 0xC0 := by decide
  have three : leadMark (2 + 1) = 0xE0 := by decide
  have four : leadMark (3 + 1) = 0xF0 := by decide
  simp only [announcement?] at announced
  split_ifs at announced
  all_goals cases announced
  · exact (if_pos rfl).symm
  · rw [if_neg (by decide), two]
    omega
  · rw [if_neg (by decide), three]
    omega
  · rw [if_neg (by decide), four]
    omega

theorem encode_prefix_of_decode? (decoded : decode? list = some (rune, count)) :
    encode rune <+: list := by
  rcases decode?_eq_some_iff.mp decoded with
    ⟨lead, rest, more, bits, rfl, rfl, announced, gathered, scalar, size⟩
  have bounds := gather?_bounds gathered
  have first := lead_of_announcement? announced
  have others := take_of_gather? gathered
  by_cases narrow : rune < 0x80
  · have single : length rune = 1 := if_pos narrow
    obtain rfl : more = 0 := by omega
    cases gathered
    rw [encode, if_pos narrow, ← first.trans (if_pos rfl), UInt8.ofNat_toNat]
    exact ⟨rest, rfl⟩
  · rcases encode_eq_cons scalar (by omega) with ⟨_, same, few, -, shape⟩
    obtain rfl := Nat.succ.inj (size.symm.trans same)
    have whole : rune / 64 ^ more = bits := Nat.div_eq_of_lt_le bounds.1 bounds.2
    rw [if_neg (by omega)] at first
    rw [shape, whole, ← first, UInt8.ofNat_toNat, ← others]
    exact ⟨rest.drop more, congrArg (lead :: ·) (List.take_append_drop more rest)⟩

theorem decode?_eq_some_iff_encode : decode? list = some (rune, count) ↔
    Rune.IsScalar rune ∧ encode rune <+: list ∧ count = (encode rune).length := by
  constructor
  · intro decoded
    have begins := encode_prefix_of_decode? decoded
    rcases decode?_eq_some_iff.mp decoded with ⟨_, _, _, _, -, rfl, -, -, scalar, size⟩
    exact ⟨scalar, begins, by rw [length_encode scalar, size]⟩
  · intro encoded
    rcases encoded with ⟨scalar, ⟨rest, rfl⟩, rfl⟩
    exact decode?_encode_append scalar rest

theorem decode?_eq_none_iff_encode : decode? list = none ↔
    ∀ rune : Rune, rune.IsScalar → ¬encode rune <+: list := by
  constructor
  · intro undecoded rune scalar begins
    rw [decode?_eq_some_iff_encode.mpr ⟨scalar, begins, rfl⟩] at undecoded
    cases undecoded
  · intro none
    cases decoded : decode? list with
    | none => rfl
    | some found =>
        have encoded := decode?_eq_some_iff_encode.mp decoded
        exact absurd encoded.2.1 (none found.1 encoded.1)

theorem encode_prefix_unique {other : Nat} (scalar : Rune.IsScalar rune)
    (otherScalar : Rune.IsScalar other) (begins : encode rune <+: list)
    (otherBegins : encode other <+: list) : other = rune := by
  have here := decode?_eq_some_iff_encode.mpr ⟨scalar, begins, rfl⟩
  have there := decode?_eq_some_iff_encode.mpr ⟨otherScalar, otherBegins, rfl⟩
  exact congrArg Prod.fst (Option.some.inj (there.symm.trans here))

/-! ## Sequences that are not accepted -/

/-- The octets begin with a lead octet and all the continuation octets that it
announces, `count` octets that together hold the bits of the rune. -/
def Spells (list : List UInt8) (count : Nat) (rune : Rune) : Prop :=
  ∃ lead rest more bits, list = lead :: rest ∧ count = more + 1 ∧
    announcement? lead = some (more, bits) ∧ gather? more bits rest = some rune

theorem Spells.unique {other length : Nat} (spells : Spells list count rune)
    (again : Spells list length other) : count = length ∧ rune = other := by
  rcases spells with ⟨lead, rest, more, bits, rfl, rfl, announced, gathered⟩
  rcases again with ⟨_, _, _, _, same, rfl, announcedAgain, gatheredAgain⟩
  cases same
  rw [announced] at announcedAgain
  cases announcedAgain
  rw [gathered] at gatheredAgain
  cases gatheredAgain
  exact ⟨rfl, rfl⟩

theorem Spells.count_of_lead {others : List UInt8} {other : Rune} {length : Nat}
    (spells : Spells (lead :: rest) count rune) (again : Spells (lead :: others) length other) :
    count = length := by
  rcases spells with ⟨_, _, _, _, head, rfl, announced, -⟩
  rcases again with ⟨_, _, _, _, sameHead, rfl, announcedAgain, -⟩
  cases head
  cases sameHead
  rw [announced] at announcedAgain
  cases announcedAgain
  rfl

theorem spells_of_decode? (decoded : decode? list = some (rune, count)) :
    Spells list count rune := by
  rcases decode?_eq_some_iff.mp decoded with
    ⟨lead, rest, more, bits, shape, size, announced, gathered, -⟩
  exact ⟨lead, rest, more, bits, shape, size, announced, gathered⟩

/-- Neither a surrogate nor a number beyond the code space is accepted, and no
rune that a shorter sequence holds. -/
theorem decode?_eq_none_of_spells (spells : Spells list count rune)
    (wrong : ¬Rune.IsScalar rune ∨ (encode rune).length < count) :
    decode? list = none := by
  cases decoded : decode? list with
  | none => rfl
  | some found =>
      have encoded := decode?_eq_some_iff_encode.mp decoded
      rcases spells.unique (spells_of_decode? decoded) with ⟨rfl, rfl⟩
      rcases wrong with unencoded | overlong
      · exact absurd encoded.1 unencoded
      · have := encoded.2.2
        omega

theorem decode?_eq_none_of_truncated {front : List UInt8} (scalar : Rune.IsScalar rune)
    (begins : front <+: encode rune) (begun : front ≠ [])
    (truncated : front.length < (encode rune).length)
    (ends : ∀ octet ∈ rest.head?, isLead octet = true) :
    decode? (front ++ rest) = none := by
  cases decoded : decode? (front ++ rest) with
  | none => rfl
  | some found =>
      have whole := decode?_encode_append scalar []
      rw [List.append_nil] at whole
      have same : found.2 = (encode rune).length := by
        obtain ⟨lead, front, rfl⟩ := List.exists_cons_of_ne_nil begun
        obtain ⟨others, shape⟩ := begins
        rw [← shape, List.cons_append] at whole ⊢
        exact (spells_of_decode? decoded).count_of_lead (spells_of_decode? whole)
      have inside := decode?_length_le decoded
      rw [List.length_append] at inside
      have missing : (front ++ rest)[front.length]? = rest.head? := by
        rw [List.getElem?_append_right (Nat.le_refl _), Nat.sub_self, List.head?_eq_getElem?]
      cases rest with
      | nil =>
          rw [List.length_nil] at inside
          omega
      | cons octet rest =>
          have continues := decode?_isLead decoded (by omega) missing
          rw [ends octet rfl] at continues
          have := List.length_pos_of_ne_nil begun
          have := of_decide_eq_true continues.symm
          omega

end Utf8

/-! ## Units -/

namespace Octets

open Utf8 (encode Spells isLead)

variable {text : Octets} {first : Nat}

theorem decode?_window (text : Octets) (first : Nat) :
    Utf8.decode? (text.window first text.size) = Utf8.decode? (text.toList.drop first) := by
  have window : text.window first text.size = (text.toList.drop first).take 4 := by
    apply List.ext_getElem?
    intro index
    rw [window_getElem?, List.getElem?_take, List.getElem?_drop, Array.getElem?_toList]
    by_cases inside : first + index < text.size
    · simp only [inside, true_and]
    · rw [Array.getElem?_eq_none (by omega), ite_self, ite_self]
  rw [window]
  cases decoded : Utf8.decode? (text.toList.drop first) with
  | none =>
      cases shorter : Utf8.decode? ((text.toList.drop first).take 4) with
      | none => rfl
      | some found =>
          rw [Utf8.decode?_of_take shorter] at decoded
          cases decoded
  | some found => exact Utf8.decode?_take decoded (Utf8.decode?_length_le_four decoded)

theorem unitFrom_of_encode (first : Nat) {rune : Rune} (scalar : rune.IsScalar)
    (begins : encode rune <+: text.toList.drop first) :
    text.unitFrom first text.size = ⟨rune, first, first + (encode rune).length⟩ := by
  apply unitFrom_of_decode?
  rw [decode?_window]
  exact Utf8.decode?_eq_some_iff_encode.mpr ⟨scalar, begins, rfl⟩

theorem unitFrom_of_undecoded (first : Nat)
    (undecoded : Utf8.decode? (text.toList.drop first) = none) :
    text.unitFrom first text.size =
      ⟨Rune.replacement, first, first + min 1 (text.size - first)⟩ := by
  rw [unitFrom, decode?_window, undecoded]
  simp only [strayFrom, TextUnit.mk.injEq, true_and]
  split <;> omega

theorem units_of_encodings {runes : List Rune} (scalars : ∀ rune ∈ runes, rune.IsScalar)
    (encodes : text.toList.drop first = runes.flatMap encode) :
    (text.units first text.size).map (·.rune) = runes := by
  induction runes generalizing first with
  | nil =>
      have ended := List.drop_eq_nil_iff.mp encodes
      rw [Array.length_toList] at ended
      rw [units, if_neg (by omega)]
      rfl
  | cons rune runes induction =>
      rw [List.flatMap_cons] at encodes
      have scalar := scalars rune List.mem_cons_self
      have positive := Utf8.decode?_length_pos (Utf8.decode?_encode_append scalar [])
      have unit := unitFrom_of_encode first scalar ⟨_, encodes.symm⟩
      have inside : first < text.size := by
        have size := congrArg List.length encodes
        rw [List.length_drop, List.length_append, Array.length_toList] at size
        omega
      rw [units, if_pos inside, unit, List.map_cons]
      refine congrArg (rune :: ·) (induction (fun other member => ?_) ?_)
      · exact scalars other (List.mem_cons_of_mem _ member)
      · rw [← List.drop_drop, encodes, List.drop_left]

/-- The unit that a text begins with is the one rune whose encoding the text
begins with. If there is none, it is the replacement in place of one octet. So
the encodings of scalar values are read as these, and what holds no scalar value,
is longer than needed or breaks off is not read as a sequence. -/
theorem unitFrom_inverts_encode (text : Octets) :
    (∀ rune : Rune, rune.IsScalar → encode rune <+: text.toList →
      (∀ other : Rune, other.IsScalar → encode other <+: text.toList → other = rune) ∧
        text.unitFrom 0 text.size = ⟨rune, 0, (encode rune).length⟩) ∧
    ((∀ rune : Rune, rune.IsScalar → ¬encode rune <+: text.toList) →
      text.unitFrom 0 text.size = ⟨Rune.replacement, 0, min 1 text.size⟩) ∧
    (∀ runes : List Rune, (∀ rune ∈ runes, rune.IsScalar) →
      text.toList = runes.flatMap encode →
        (text.units 0 text.size).map (·.rune) = runes) ∧
    (∀ count rune, Spells text.toList count rune →
      ¬rune.IsScalar ∨ (encode rune).length < count →
        text.unitFrom 0 text.size = ⟨Rune.replacement, 0, 1⟩) ∧
    ∀ (rune : Rune) (front rest : List UInt8), rune.IsScalar → front <+: encode rune →
      front ≠ [] → front.length < (encode rune).length → text.toList = front ++ rest →
        (∀ octet ∈ rest.head?, isLead octet = true) →
          text.unitFrom 0 text.size = ⟨Rune.replacement, 0, 1⟩ := by
  have stray : text.toList ≠ [] → Utf8.decode? text.toList = none →
      text.unitFrom 0 text.size = ⟨Rune.replacement, 0, 1⟩ := by
    intro nonempty undecoded
    have positive := List.length_pos_of_ne_nil nonempty
    rw [Array.length_toList] at positive
    rw [unitFrom_of_undecoded 0 undecoded, TextUnit.mk.injEq]
    exact ⟨rfl, rfl, by omega⟩
  refine ⟨?encoded, ?unencoded, ?all, ?wrong, ?truncated⟩
  case encoded =>
    intro rune scalar begins
    refine ⟨fun other otherScalar otherBegins =>
      Utf8.encode_prefix_unique scalar otherScalar begins otherBegins, ?_⟩
    have unit := unitFrom_of_encode 0 scalar begins
    rwa [Nat.zero_add] at unit
  case unencoded =>
    intro none
    have unit := unitFrom_of_undecoded 0 (Utf8.decode?_eq_none_iff_encode.mpr none)
    rwa [Nat.zero_add] at unit
  case all =>
    intro runes scalars encodes
    exact units_of_encodings scalars encodes
  case wrong =>
    intro count rune spells wrong
    refine stray ?_ (Utf8.decode?_eq_none_of_spells spells wrong)
    rcases spells with ⟨_, _, _, _, shape, -⟩
    rw [shape]
    exact List.cons_ne_nil _ _
  case truncated =>
    intro rune front rest scalar begins begun truncated shape ends
    have undecoded := Utf8.decode?_eq_none_of_truncated scalar begins begun truncated ends
    rw [← shape] at undecoded
    refine stray ?_ undecoded
    rw [shape]
    exact List.append_ne_nil_of_left_ne_nil begun rest

theorem euroSign_inverted :
    unitFrom #[0xE2, 0x82, 0xAC, 0x41] 0 4 = ⟨0x20AC, 0, 3⟩ ∧
      unitFrom #[0xF0, 0x82, 0x82, 0xAC] 0 4 = ⟨Rune.replacement, 0, 1⟩ := by
  have overlong : Spells [0xF0, 0x82, 0x82, 0xAC] 4 0x20AC :=
    ⟨0xF0, [0x82, 0x82, 0xAC], 3, 0, rfl, rfl, by decide, by decide⟩
  exact ⟨((unitFrom_inverts_encode #[0xE2, 0x82, 0xAC, 0x41]).1 0x20AC (by decide)
      ⟨[0x41], by decide⟩).2,
    (unitFrom_inverts_encode #[0xF0, 0x82, 0x82, 0xAC]).2.2.2.1 4 0x20AC overlong
      (.inr (by decide))⟩

end Octets

end RegexMachine
