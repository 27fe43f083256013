import RegexMachine.Integer

/-! # Conversions between machine integers

A checked conversion compares the value with the ends of its target in the type that the
two types have in common. That type has all values of both, and the comparison is the
mathematical one, unless one of the types is signed and the other, no narrower, is not:
the unsigned type prevails then, and a negative operand is read as a large positive one.
So a negative value gets through to a type that lacks it, and a negative end shuts out
every value. -/

namespace RegexMachine

namespace IntegerType

variable {type part source target left right : IntegerType} {value x y : Int}

/-! ## The values of a type -/

def Holds (type : IntegerType) (value : Int) : Prop :=
  type.minimum ≤ value ∧ value ≤ type.maximum

instance (type : IntegerType) (value : Int) : Decidable (type.Holds value) :=
  inferInstanceAs (Decidable (_ ∧ _))

/-- What a conversion is meant to give: the value itself where the type has it, and
nothing elsewhere. -/
def represent? (type : IntegerType) (value : Int) : Option Int :=
  if type.Holds value then some value else none

theorem valueCount_pos (width : Nat) : 0 < valueCount width :=
  Nat.two_pow_pos width

theorem valueCount_eq_double {width : Nat} (positive : 0 < width) :
    valueCount width = 2 * valueCount (width - 1) := by
  obtain ⟨width, rfl⟩ := Nat.exists_eq_add_one_of_ne_zero (Nat.ne_of_gt positive)
  exact Nat.pow_succ'

theorem valueCount_mono {narrow wide : Nat} (width : narrow ≤ wide) :
    valueCount narrow ≤ valueCount wide :=
  Nat.pow_le_pow_right Nat.two_pos width

theorem holds_unsigned_iff (unsigned : type.signed = false) :
    type.Holds value ↔ 0 ≤ value ∧ value < valueCount type.width := by
  rw [Holds, minimum, maximum, unsigned]
  simp only [Bool.false_eq_true, if_false]
  omega

theorem holds_signed_iff (signed : type.signed = true) :
    type.Holds value ↔
      -(valueCount (type.width - 1) : Int) ≤ value ∧ value < valueCount (type.width - 1) := by
  rw [Holds, minimum, maximum, signed]
  simp only [if_true]
  omega

theorem ends_of_signed (signed : type.signed = true) :
    type.minimum = -(valueCount (type.width - 1) : Int) ∧
      type.maximum = (valueCount (type.width - 1) : Int) - 1 := by
  rw [minimum, maximum, signed]
  exact ⟨rfl, rfl⟩

theorem holds_ends (type : IntegerType) :
    type.Holds type.minimum ∧ type.Holds type.maximum := by
  have ordered : type.minimum ≤ type.maximum := by
    have values := valueCount_pos type.width
    have half := valueCount_pos (type.width - 1)
    unfold minimum maximum
    split <;> omega
  exact ⟨⟨Int.le_refl _, ordered⟩, ordered, Int.le_refl _⟩

/-! ## Reading a value in a type -/

theorem wrap_of_unsigned (unsigned : type.signed = false) :
    type.wrap value = value % valueCount type.width := by
  rw [wrap, unsigned]
  rfl

theorem wrap_of_holds (positive : 0 < type.width) (holds : type.Holds value) :
    type.wrap value = value := by
  cases signedness : type.signed with
  | false =>
      rw [wrap_of_unsigned signedness]
      obtain ⟨low, high⟩ := (holds_unsigned_iff signedness).mp holds
      exact Int.emod_eq_of_lt low high
  | true =>
      rw [wrap, signedness]
      obtain ⟨low, high⟩ := (holds_signed_iff signedness).mp holds
      have double := valueCount_eq_double positive
      exact Int.bmod_eq_of_le_mul_two (by omega) (by omega)

theorem holds_wrap_of_unsigned (unsigned : type.signed = false) (value : Int) :
    type.Holds (type.wrap value) := by
  have positive : (0 : Int) < valueCount type.width := by
    exact_mod_cast valueCount_pos type.width
  rw [holds_unsigned_iff unsigned, wrap_of_unsigned unsigned]
  exact ⟨Int.emod_nonneg _ (Int.ne_of_gt positive), Int.emod_lt_of_pos _ positive⟩

theorem wrap_of_negative (unsigned : type.signed = false) (negative : value < 0)
    (near : -(valueCount type.width : Int) ≤ value) :
    type.wrap value = value + valueCount type.width := by
  rw [wrap_of_unsigned unsigned, ← Int.add_emod_right]
  exact Int.emod_eq_of_lt (by omega) (by omega)

/-! ## Which types have the values of which -/

/-- The type has all values of the other one. -/
def Covers (type part : IntegerType) : Prop :=
  ∀ value, part.Holds value → type.Holds value

theorem Covers.refl (type : IntegerType) : type.Covers type :=
  fun _ holds => holds

theorem Covers.trans (upper : type.Covers part) (lower : part.Covers source) :
    type.Covers source :=
  fun value holds => upper value (lower value holds)

theorem covers_of_same_sign (same : part.signed = type.signed)
    (width : part.width ≤ type.width) : type.Covers part := by
  intro value holds
  cases signedness : type.signed with
  | false =>
      rw [signedness] at same
      rw [holds_unsigned_iff same] at holds
      rw [holds_unsigned_iff signedness]
      have count := valueCount_mono width
      omega
  | true =>
      rw [signedness] at same
      rw [holds_signed_iff same] at holds
      rw [holds_signed_iff signedness]
      have count := valueCount_mono (Nat.sub_le_sub_right width 1)
      omega

theorem covers_unsigned (unsigned : part.signed = false) (signed : type.signed = true)
    (width : part.width < type.width) : type.Covers part := by
  intro value holds
  rw [holds_unsigned_iff unsigned] at holds
  rw [holds_signed_iff signed]
  have count := valueCount_mono (Nat.le_sub_one_of_lt width)
  omega

/-- An unsigned type prevails over a signed one that is no wider. -/
def Prevails (unsigned signed : IntegerType) : Prop :=
  unsigned.signed = false ∧ signed.signed = true ∧ signed.width ≤ unsigned.width

instance (unsigned signed : IntegerType) : Decidable (unsigned.Prevails signed) :=
  inferInstanceAs (Decidable (_ ∧ _))

theorem within_of_prevails (prevails : type.Prevails part) (holds : part.Holds value) :
    -(valueCount type.width : Int) ≤ value ∧ value < valueCount type.width := by
  obtain ⟨-, signed, width⟩ := prevails
  rw [holds_signed_iff signed] at holds
  have count := valueCount_mono (Nat.le_trans (Nat.sub_le part.width 1) width)
  omega

theorem covers_of_wider (narrower : part.width < type.width)
    (apart : ¬type.Prevails part) : type.Covers part := by
  cases signedness : type.signed with
  | false =>
      have unsigned : part.signed = false := Bool.eq_false_iff.mpr fun signed =>
        apart ⟨signedness, signed, Nat.le_of_lt narrower⟩
      exact covers_of_same_sign (unsigned.trans signedness.symm) (Nat.le_of_lt narrower)
  | true =>
      cases sign : part.signed with
      | false => exact covers_unsigned sign signedness narrower
      | true => exact covers_of_same_sign (sign.trans signedness.symm) (Nat.le_of_lt narrower)

/-! ## The common type -/

theorem promoted_of_le_width (wide : 32 ≤ type.width) : type.promoted = type :=
  if_neg (Nat.not_lt.mpr wide)

theorem width_le_promoted (type : IntegerType) : type.width ≤ type.promoted.width := by
  unfold promoted
  split
  · next narrow => exact Nat.le_of_lt narrow
  · exact Nat.le_refl _

theorem covers_promoted (type : IntegerType) : type.promoted.Covers type := by
  unfold promoted
  split
  · next narrow => exact covers_of_wider narrow fun prevails => nomatch prevails.1
  · exact .refl type

theorem Prevails.promoted (prevails : type.Prevails part) (wide : 32 ≤ type.width) :
    type.promoted.Prevails part.promoted := by
  obtain ⟨unsigned, signed, width⟩ := prevails
  rw [promoted_of_le_width wide]
  unfold IntegerType.promoted
  split
  · exact ⟨unsigned, rfl, wide⟩
  · exact ⟨unsigned, signed, width⟩

/-- Widening lets no type prevail over a signed one that did not before: a narrow type
becomes signed. -/
theorem prevails_of_promoted (signed : part.signed = true)
    (prevails : type.promoted.Prevails part.promoted) : type.Prevails part := by
  obtain ⟨unsigned, -, width⟩ := prevails
  have wide : 32 ≤ type.width := Nat.not_lt.mp fun narrow => by
    rw [promoted, if_pos narrow] at unsigned
    cases unsigned
  rw [promoted_of_le_width wide] at unsigned width
  exact ⟨unsigned, signed, Nat.le_trans (width_le_promoted part) width⟩

theorem common_comm (left right : IntegerType) : common left right = common right left := by
  unfold common
  simp only
  split
  · next narrower => rw [if_neg (Nat.lt_asymm narrower)]
  · next wide =>
      split
      · rfl
      · next same =>
          rw [Nat.le_antisymm (Nat.not_lt.mp same) (Nat.not_lt.mp wide), Bool.and_comm]

theorem common_of_prevails (prevails : left.promoted.Prevails right.promoted) :
    common left right = left.promoted := by
  obtain ⟨unsigned, -, width⟩ := prevails
  unfold common
  simp only
  rw [if_neg (Nat.not_lt.mpr width)]
  split
  · rfl
  · rw [unsigned, Bool.false_and, ← unsigned]

theorem Prevails.common_eq (prevails : type.Prevails part) (wide : 32 ≤ type.width) :
    common type part = type :=
  (common_of_prevails (prevails.promoted wide)).trans (promoted_of_le_width wide)

theorem covers_common (apart : ¬right.Prevails left) : (common left right).Covers left := by
  by_cases prevails : right.promoted.Prevails left.promoted
  -- Widened, a narrow unsigned type is signed and may be prevailed over; its own values are
  -- not negative, and stay.
  · rw [common_comm, common_of_prevails prevails]
    have unsigned : left.signed = false := Bool.eq_false_iff.mpr fun signed =>
      apart (prevails_of_promoted signed prevails)
    have width := Nat.le_trans (width_le_promoted left) prevails.2.2
    exact covers_of_same_sign (unsigned.trans prevails.1.symm) width
  · refine .trans ?_ (covers_promoted left)
    unfold common
    simp only
    split
    · next narrower => exact covers_of_wider narrower prevails
    · split
      · exact .refl _
      · next same =>
          refine covers_of_same_sign ?_ (Nat.le_refl _)
          cases signedness : left.promoted.signed with
          | false => rfl
          | true =>
              refine (eq_true_of_ne_false fun unsigned => ?_).symm
              exact prevails ⟨unsigned, signedness, Nat.not_lt.mp same⟩

theorem width_common_pos (left right : IntegerType) : 0 < (common left right).width := by
  have positive (type : IntegerType) : 0 < type.promoted.width := by
    unfold promoted
    split
    · decide
    · next wide => omega
  unfold common
  simp only
  split
  · exact positive right
  · split <;> exact positive left

theorem lessEqual_iff (first : (common left right).Holds x)
    (second : (common left right).Holds y) : lessEqual left x right y = true ↔ x ≤ y := by
  have positive := width_common_pos left right
  rw [lessEqual, decide_eq_true_eq, wrap_of_holds positive first, wrap_of_holds positive second]

/-! ## Conversions -/

theorem convert?_of_apart (stored : 0 < target.width) (holds : source.Holds value)
    (keepsSource : ¬target.Prevails source) (keepsTarget : ¬source.Prevails target) :
    source.convert? target value = target.represent? value := by
  obtain ⟨least, greatest⟩ := holds_ends target
  have low : lessEqual target target.minimum source value = true ↔ target.minimum ≤ value := by
    refine lessEqual_iff (covers_common keepsTarget _ least) ?_
    rw [common_comm]
    exact covers_common keepsSource _ holds
  have high : lessEqual source value target target.maximum = true ↔ value ≤ target.maximum := by
    refine lessEqual_iff (covers_common keepsSource _ holds) ?_
    rw [common_comm]
    exact covers_common keepsTarget _ greatest
  have passes : (lessEqual target target.minimum source value &&
      lessEqual source value target target.maximum) = true ↔ target.Holds value := by
    rw [Bool.and_eq_true, low, high, Holds]
  rw [convert?, represent?]
  by_cases held : target.Holds value
  · rw [if_pos (passes.mpr held), if_pos held, wrap_of_holds stored held]
  · rw [if_neg (mt passes.mp held), if_neg held]

/-- A signed type with more bits than the unsigned target still refuses minus one. -/
example : convert? ⟨64, true⟩ ⟨32, false⟩ (-1) = none := by decide

/-- A target that prevails takes every value: read in the target itself, none lies outside
of its ends. -/
theorem convert?_of_prevails (wide : 32 ≤ source.width) (prevails : target.Prevails source)
    (value : Int) : source.convert? target value = some (target.wrap value) := by
  have wider : 32 ≤ target.width := Nat.le_trans wide prevails.2.2
  have positive : 0 < target.width := Nat.lt_of_lt_of_le (by decide) wider
  obtain ⟨least, greatest⟩ := holds_ends target
  have within := holds_wrap_of_unsigned prevails.1 value
  have low : lessEqual target target.minimum source value = true := by
    rw [lessEqual, prevails.common_eq wider, decide_eq_true_eq, wrap_of_holds positive least]
    exact within.1
  have high : lessEqual source value target target.maximum = true := by
    rw [lessEqual, common_comm, prevails.common_eq wider, decide_eq_true_eq,
      wrap_of_holds positive greatest]
    exact within.2
  rw [convert?, low, high]
  rfl

/-- A source that prevails gives nothing: the negative end of the target is read in it as
a value above the other end. -/
theorem convert?_of_prevailed (wide : 32 ≤ source.width) (stored : 0 < target.width)
    (prevails : source.Prevails target) (value : Int) :
    source.convert? target value = none := by
  obtain ⟨unsigned, signed, width⟩ := id prevails
  have positive : 0 < source.width := Nat.lt_of_lt_of_le (by decide) wide
  have half := valueCount_pos (target.width - 1)
  have double := valueCount_eq_double stored
  have count := valueCount_mono width
  obtain ⟨least, greatest⟩ := ends_of_signed signed
  have above : source.wrap target.maximum < source.wrap target.minimum := by
    have held : source.Holds target.maximum := by
      rw [holds_unsigned_iff unsigned]
      omega
    rw [wrap_of_holds positive held, wrap_of_negative unsigned (by omega) (by omega)]
    omega
  refine if_neg fun passes => ?_
  rw [Bool.and_eq_true, lessEqual, lessEqual, common_comm target, prevails.common_eq wide,
    decide_eq_true_eq, decide_eq_true_eq] at passes
  exact absurd (Int.le_trans passes.1 passes.2) (Int.not_le.mpr above)

/-- A conversion from a type of at least 32 bits gives the value itself where the target has
it and is refused elsewhere, unless one of the two types prevails over the other. Then a
target that prevails gives a positive value for a negative one, and a source that
prevails gives nothing, not even what the target has. -/
theorem conversion_represents_iff (wide : 32 ≤ source.width) (stored : 0 < target.width)
    (holds : source.Holds value) :
    (source.convert? target value = target.represent? value ↔
        ¬(target.Prevails source ∧ value < 0) ∧
          ¬(source.Prevails target ∧ target.Holds value)) ∧
      (target.Prevails source → value < 0 →
        source.convert? target value = some (value + valueCount target.width)) ∧
      (source.Prevails target → source.convert? target value = none) := by
  have lost (prevails : target.Prevails source) (negative : value < 0) :
      source.convert? target value = some (value + valueCount target.width) := by
    have near := (within_of_prevails prevails holds).1
    rw [convert?_of_prevails wide prevails, wrap_of_negative prevails.1 negative near]
  have shut (prevails : source.Prevails target) : source.convert? target value = none :=
    convert?_of_prevailed wide stored prevails value
  refine ⟨⟨fun given => ⟨?_, ?_⟩, fun fair => ?_⟩, lost, shut⟩
  · rintro ⟨prevails, negative⟩
    have missing : ¬target.Holds value := fun held =>
      Int.not_le.mpr negative ((holds_unsigned_iff prevails.1).mp held).1
    rw [lost prevails negative, represent?, if_neg missing] at given
    cases given
  · rintro ⟨prevails, held⟩
    rw [shut prevails, represent?, if_pos held] at given
    cases given
  · by_cases taken : target.Prevails source
    · have held : target.Holds value := (holds_unsigned_iff taken.1).mpr
        ⟨Int.not_lt.mp fun negative => fair.1 ⟨taken, negative⟩,
          (within_of_prevails taken holds).2⟩
      rw [convert?_of_prevails wide taken, wrap_of_holds stored held, represent?, if_pos held]
    · by_cases closed : source.Prevails target
      · rw [shut closed, represent?, if_neg fun held => fair.2 ⟨closed, held⟩]
      · exact convert?_of_apart stored holds taken closed

theorem signChange_misjudged :
    IntegerType.Holds ⟨32, true⟩ (-1) ∧ IntegerType.Holds ⟨32, false⟩ 0 ∧
      convert? ⟨32, true⟩ ⟨32, false⟩ (-1) = some 0xFFFFFFFF ∧
      represent? ⟨32, false⟩ (-1) = none ∧
      convert? ⟨32, false⟩ ⟨32, true⟩ 0 = none ∧
      represent? ⟨32, true⟩ 0 = some 0 := by
  have negative : IntegerType.Holds ⟨32, true⟩ (-1) := by decide
  have zero : IntegerType.Holds ⟨32, false⟩ 0 := by decide
  refine ⟨negative, zero, ?_, by decide, ?_, by decide⟩
  · exact (conversion_represents_iff (by decide) (by decide) negative).2.1 (by decide) (by decide)
  · exact (conversion_represents_iff (by decide) (by decide) zero).2.2 (by decide)

theorem convert?_unsigned {width narrow value : Nat} (stored : 0 < narrow)
    (fits : value < valueCount width) :
    convert? ⟨width, false⟩ ⟨narrow, false⟩ value =
      if value < valueCount narrow then some (value : Int) else none := by
  have holds : IntegerType.Holds ⟨width, false⟩ value :=
    (holds_unsigned_iff rfl).mpr ⟨Int.natCast_nonneg value, Int.ofNat_lt.mpr fits⟩
  have held : IntegerType.Holds ⟨narrow, false⟩ value ↔ value < valueCount narrow := by
    rw [holds_unsigned_iff rfl, Int.ofNat_lt, and_iff_right (Int.natCast_nonneg value)]
  have apart (left right : Nat) : ¬Prevails ⟨left, false⟩ ⟨right, false⟩ :=
    fun prevails => Bool.false_ne_true prevails.2.1
  rw [convert?_of_apart stored holds (apart _ _) (apart _ _), represent?]
  split
  · next inside => rw [if_pos (held.mp inside)]
  · next outside => rw [if_neg (mt held.mpr outside)]

end IntegerType

/-! ## Operands -/

/-- A size is turned into a 16-bit operand by the conversion between the two types. -/
theorem word16?_eq_convert? {size : Nat} (fits : size < wordCount) :
    (word16? size).map (fun word => (word.toNat : Int)) =
      IntegerType.convert? ⟨64, false⟩ ⟨16, false⟩ size := by
  rw [IntegerType.convert?_unsigned (by decide) fits, word16?]
  change _ = if size < 0x10000 then _ else _
  split
  · next small => rw [Option.map_some, Nat.toUInt16_eq, UInt16.toNat_ofNat_of_lt' small]
  · rfl

theorem word32?_eq_convert? {size : Nat} (fits : size < wordCount) :
    (word32? size).map (fun word => (word.toNat : Int)) =
      IntegerType.convert? ⟨64, false⟩ ⟨32, false⟩ size := by
  rw [IntegerType.convert?_unsigned (by decide) fits, word32?]
  change _ = if size < 0x100000000 then _ else _
  split
  · next small => rw [Option.map_some, Nat.toUInt32_eq, UInt32.toNat_ofNat_of_lt' small]
  · rfl

end RegexMachine
