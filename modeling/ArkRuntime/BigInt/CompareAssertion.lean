import ArkRuntime.BigInt.CompareNumber

/-!
# The assertion of `CompareWithNumber`

`leftover` counts the bits of the significand that are not compared yet: it starts with what the first digit
leaves, and each later round takes a digit away, twice. The assertion behind the loop reads it when the
significand is not used up, which happens for a double with a fraction whose integer part is the BigInt.
-/

namespace ArkRuntime

namespace BigInt

open Binary64

variable {x : BigInt} {bits : UInt64}

/-- `CompareWithNumber` with the counter of its assertion. -/
def compareWithNumberAsserted (bigint : BigInt) (number : JSNumber) :
    Except BigIntFault (ComparisonResult × Option Int) :=
  let num := number.getNumber
  let isZero := KeyHash.isZeroDouble num
  let numberSign := !KeyHash.isNaN num && KeyHash.signbit num && !isZero
  let positive := !KeyHash.isNaN num && !KeyHash.signbit num && !isZero
  if KeyHash.isNaN num then .ok (.undefined, none)
  else if JSNumber.exponentField num = 0x7FF then .ok (if !numberSign then .less else .great, none)
  else
    let integerDigits : Int := (JSNumber.exponentField num).toNat - JSNumber.doubleExponentBias
    let mantissa := (num &&& JSNumber.doubleSignificandMask) ||| JSNumber.doubleHiddenBit
    if !numberSign && bigint.sign then .ok (.less, none)
    else if numberSign && !bigint.sign then .ok (.great, none)
    else if bigint.isZero && isZero then .ok (.equal, none)
    else if bigint.isZero && positive then .ok (.less, none)
    else if integerDigits < 0 then .ok (if bigint.sign then .less else .great, none)
    else do
      let (res, leadingZeros) ← compareToBitsLen bigint (integerDigits + 1)
      if res = 0 then return (.less, none)
      else if res = 1 then return (.great, none)
      else compareLoop bigint leadingZeros bigint.length true mantissa 0

/-! ## The counter does not change the result -/

theorem compareWithNumberAsserted_fst (number : JSNumber) :
    (compareWithNumberAsserted x number).map Prod.fst = compareWithNumber x number := by
  rw [compareWithNumberAsserted, compareWithNumber]
  dsimp only
  iterate 7 refine (apply_ite _ _ _ _).trans (if_congr Iff.rfl rfl ?_)
  exact assertedMagnitudes_fst ..

/-! ## Where the assertion is reached -/

/-- The bit length of the BigInt. -/
theorem Head.size_eq {head : UInt32} {zeros : Nat} (top : Head x head zeros) : Nat.size (magnitude x.digits) = 32 * x.length - zeros := by
  obtain ⟨lower, upper⟩ := top.width
  have positive := top.positive
  have below := top.small
  have power : 2 ^ (32 * x.length - zeros) = 2 ^ (32 * x.length - zeros - 1) * 2 := by
    rw [← Nat.pow_succ]
    congr 1
    omega
  refine Nat.le_antisymm (Nat.size_le.mpr upper) ?_
  have inside := Nat.lt_size.mpr (show 2 ^ (32 * x.length - zeros - 1) ≤ magnitude x.digits by omega)
  omega

/-- The double has the sign of the BigInt, which is its integer part, and a fraction. -/
def HasFraction (x : BigInt) (bits : UInt64) : Prop :=
  x.sign = decide (signedScaled bits < 0) ∧ Between (magnitude x.digits) (scaled (pattern bits)) one

instance (x : BigInt) (bits : UInt64) : Decidable (HasFraction x bits) := instDecidableAnd

theorem between_scaled_iff (large : 1023 ≤ (JSNumber.exponentField bits).toNat) (m : Nat) :
    Between m (scaled (pattern bits)) one ↔
      Between m ((fullSignificand bits).toNat * 2 ^ ((JSNumber.exponentField bits).toNat - 1023)) (2 ^ 52) := by
  rw [Between, Between, scaled_pattern large, one_eq, ← Nat.mul_assoc, ← Nat.mul_assoc,
    Nat.mul_lt_mul_right (Nat.two_pow_pos 1022), Nat.mul_lt_mul_right (Nat.two_pow_pos 1022)]

theorem number_of_isFinite (finite : isFinite bits = true) :
    Binary64.isNaN bits = false ∧ JSNumber.exponentField bits ≠ 0x7FF := by
  rw [isFinite, decide_eq_true_iff] at finite
  refine ⟨decide_eq_false (Nat.lt_asymm finite), fun field => ?_⟩
  have value : (0x7FF : UInt64).toNat = 2047 := rfl
  rw [pattern_eq bits, field, Binary64.infinity] at finite
  omega

theorem compareWithNumberAsserted_zero (canonical : x.Canonical) (number : JSNumber)
    (finite : isFinite number.getNumber = true) (zero : x.isZero = true) :
    ∃ r, compareWithNumberAsserted x number = .ok (r, none) := by
  have sign : x.sign = false := by
    rw [← Bool.not_eq_true, canonical.sign_iff, canonical.toInt_eq_zero_iff.mpr (isZero_iff.mp zero)]
    exact Int.lt_irrefl 0
  obtain ⟨isNumber, exponent⟩ := number_of_isFinite finite
  simp only [compareWithNumberAsserted, isNaN_eq, isNumber, exponent, zero, sign, Bool.false_eq_true, if_false]
  cases KeyHash.isZeroDouble number.getNumber <;> cases KeyHash.signbit number.getNumber <;> exact ⟨_, rfl⟩

/-- The assertion is reached for a double with the BigInt as its integer part and a fraction. -/
theorem compareWithNumberAsserted_eq (canonical : x.Canonical) (number : JSNumber)
    (finite : isFinite number.getNumber = true) {head : UInt32} {zeros : Nat} (top : Head x head zeros)
    (nonzero : x.isZero = false) :
    ∃ r, compareWithNumberAsserted x number = .ok (r, if HasFraction x number.getNumber then
      some (21 + zeros - 64 * (x.length - 1 : Nat)) else none) := by
  rw [compareWithNumberAsserted]
  generalize number.getNumber = bits at *
  obtain ⟨isNumber, exponent⟩ := number_of_isFinite finite
  have none (other : ¬ HasFraction x bits) (r : ComparisonResult) :
      ∃ r', (.ok (r, none) : Except BigIntFault _) = .ok (r', if HasFraction x bits then
        some ((21 : Int) + zeros - 64 * (x.length - 1 : Nat)) else none) := by
    rw [if_neg other]
    exact ⟨r, rfl⟩
  dsimp only
  rw [numberSign_eq isNumber, isNaN_eq, isNumber, if_neg exponent]
  simp only [Bool.false_eq_true, if_false, nonzero, Bool.false_and]
  by_cases sameSign : x.sign = decide (signedScaled bits < 0)
  · rw [← sameSign]
    simp only [Bool.not_and_self, Bool.and_not_self, Bool.false_eq_true, if_false]
    by_cases small : (JSNumber.exponentField bits).toNat < 1023
    · have fraction : ((JSNumber.exponentField bits).toNat - JSNumber.doubleExponentBias : Int) < 0 := by
        rw [JSNumber.doubleExponentBias]
        omega
      have below : scaled (pattern bits) < one := by
        rw [← Nat.not_le, one_le_scaled_iff]
        exact Nat.not_le.mpr small
      have positive : 0 < magnitude x.digits := by
        rw [Nat.pos_iff_ne_zero, ne_eq, canonical.magnitude_eq_zero_iff]
        exact isZero_eq_false_iff.mp nonzero
      have whole := Nat.le_mul_of_pos_left one positive
      rw [if_pos fraction]
      exact none (fun has => Nat.lt_asymm has.2.1 (Nat.lt_of_lt_of_le below whole)) _
    · have whole : ((JSNumber.exponentField bits).toNat - JSNumber.doubleExponentBias : Int) =
          ((JSNumber.exponentField bits).toNat - 1023 : Nat) := by
        rw [JSNumber.doubleExponentBias]
        omega
      have reached : HasFraction x bits ↔ Between (magnitude x.digits) ((fullSignificand bits).toNat *
          2 ^ ((JSNumber.exponentField bits).toNat - 1023)) (2 ^ 52) :=
        (and_iff_right sameSign).trans (between_scaled_iff (Nat.not_lt.mp small) _)
      rw [if_neg (by omega), whole]
      simp only [reached]
      exact ⟨_, assertedMagnitudes_spec top bits _⟩
  · have other := none fun has => sameSign has.1
    cases sign : x.sign <;> cases negative : decide (signedScaled bits < 0) <;>
      simp only [sign, negative, not_true_eq_false] at sameSign
    · exact other _
    · exact other _

/-- The value that the assertion reads, if it is reached, is positive and the number of bits of the
    significand that are not compared. -/
def AssertionHolds (x : BigInt) (number : JSNumber) : Prop :=
  ∃ r leftover, compareWithNumberAsserted x number = .ok (r, leftover) ∧
    ∀ bits ∈ leftover, 0 < bits ∧ bits = 53 - (Nat.size (magnitude x.digits) : Int)

theorem assertionHolds_iff (x : BigInt) (canonical : x.Canonical) (number : JSNumber)
    (finite : isFinite number.getNumber = true) :
    AssertionHolds x number ↔ (x.length ≤ 1 ∨ ¬ HasFraction x number.getNumber) := by
  by_cases zero : x.isZero = true
  · have single : x.length = 1 := by rw [length, isZero_iff.mp zero]; rfl
    obtain ⟨r, run⟩ := compareWithNumberAsserted_zero canonical number finite zero
    exact iff_of_true ⟨r, none, run, fun bits read => (by cases read)⟩ (.inl (Nat.le_of_eq single))
  rw [Bool.not_eq_true] at zero
  obtain ⟨head, zeros, top⟩ := canonical.exists_head (isZero_eq_false_iff.mp zero)
  obtain ⟨r, run⟩ := compareWithNumberAsserted_eq canonical number finite top zero
  have positive := top.positive
  have below := top.small
  have size := top.size_eq
  rw [AssertionHolds, run]
  constructor
  · rintro ⟨r', leftover, same, holds⟩
    cases same
    by_contra misses
    obtain ⟨many, reached⟩ := not_or.mp misses
    rw [if_pos (not_not.mp reached)] at holds
    have := (holds _ rfl).1
    omega
  · intro ok
    refine ⟨r, _, rfl, fun bits read => ?_⟩
    split_ifs at read with reached
    · cases read
      have single := ok.resolve_right (not_not_intro reached)
      omega
    · cases read

/-- The counter does not change the result of `CompareWithNumber`, and its assertion holds exactly for a BigInt
    of one digit and where it is not reached. -/
theorem compareWithNumber_assertion_iff (x : BigInt) (canonical : x.Canonical) (number : JSNumber)
    (finite : isFinite number.getNumber = true) :
    (compareWithNumberAsserted x number).map Prod.fst = compareWithNumber x number ∧
      (AssertionHolds x number ↔ (x.length ≤ 1 ∨ ¬ HasFraction x number.getNumber)) :=
  ⟨compareWithNumberAsserted_fst number, assertionHolds_iff x canonical number finite⟩

/-- `2 ^ 32` and `2 ^ 32 + 1/2`: the counter is `21 + 31 - 64`. -/
theorem compareWithNumber_assertion_half :
    ¬ ∀ (x : BigInt) (number : JSNumber), x.Canonical → isFinite number.getNumber = true →
      AssertionHolds x number := by
  intro always
  obtain ⟨r, leftover, run, holds⟩ :=
    always ⟨false, [0, 1]⟩ (.double 0x41F0000000080000) (by decide) (by decide)
  have found : compareWithNumberAsserted ⟨false, [0, 1]⟩ (.double 0x41F0000000080000) =
      .ok (.less, some (-12)) := by decide +kernel
  cases found.symm.trans run
  exact absurd (holds _ rfl).1 (by decide)

theorem compareWithNumber_assertion_one :
    AssertionHolds ⟨false, [1]⟩ (.double 0x3FF8000000000000) ↔
      (length ⟨false, [1]⟩ ≤ 1 ∨ ¬ HasFraction ⟨false, [1]⟩ 0x3FF8000000000000) :=
  (compareWithNumber_assertion_iff ⟨false, [1]⟩ (by decide) (.double 0x3FF8000000000000) (by decide)).2

end BigInt

end ArkRuntime
