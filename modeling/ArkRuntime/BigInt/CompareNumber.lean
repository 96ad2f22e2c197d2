import ArkRuntime.BigInt.DoubleDigits
import ArkRuntime.BigInt.ToNumber

/-!
# Comparison of a BigInt and a double

`CompareWithNumber` orders a BigInt and a double as the numbers that they stand for: by their signs, by their
bit lengths, by the digits of the double, and last by what is left of its significand.
-/

namespace ArkRuntime

namespace BigInt

open Binary64

variable {x : BigInt} {bits : UInt64} {v : Int}

/-- The order of an integer and a double. -/
def orderOfDouble (v : Int) (bits : UInt64) : ComparisonResult :=
  if isNaN bits then .undefined
  else if isFinite bits then
    if (v : ℚ) < value bits then .less else if (v : ℚ) = value bits then .equal else .great
  else if Binary64.negative bits then .great else .less

/-- The order of two magnitudes with the same sign. -/
def signedOrder (sign : Bool) (a b : Nat) : ComparisonResult :=
  if a < b then (if sign then .great else .less)
  else if b < a then (if sign then .less else .great)
  else .equal

theorem signedOrder_lt {sign : Bool} {a b : Nat} (less : a < b) :
    signedOrder sign a b = if sign then .great else .less := if_pos less

theorem signedOrder_gt {sign : Bool} {a b : Nat} (greater : b < a) :
    signedOrder sign a b = if sign then .less else .great :=
  (if_neg (Nat.lt_asymm greater)).trans (if_pos greater)

theorem signedOrder_self (sign : Bool) (a : Nat) : signedOrder sign a a = .equal :=
  (if_neg (Nat.lt_irrefl a)).trans (if_neg (Nat.lt_irrefl a))

/-! ## The loop -/

/-- The loop of `CompareWithNumber` over the digits below an index, with `leftover`: its result, and the
    counter where the assertion reads it. -/
def compareLoop (bigint : BigInt) (leadingZeros : Nat) :
    Nat → Bool → UInt64 → Int → Except BigIntFault (ComparisonResult × Option Int)
  | 0, _, mantissa, leftover =>
      if mantissa ≠ 0 then .ok (if bigint.sign then .great else .less, some leftover)
      else .ok (.equal, none)
  | index + 1, true, mantissa, _ => do
      let bigintNum ← getDigit bigint.digits index
      let leftover := JSNumber.doubleSignificandSize - dateBits + leadingZeros + 1
      let doubleNum := (mantissa >>> UInt64.ofNat leftover).toUInt32
      let mantissa := mantissa <<< (64 - UInt64.ofNat leftover)
      if bigintNum > doubleNum then return (if bigint.sign then .less else .great, none)
      else if bigintNum < doubleNum then return (if bigint.sign then .great else .less, none)
      else compareLoop bigint leadingZeros index false mantissa leftover
  | index + 1, false, mantissa, leftover => do
      let bigintNum ← getDigit bigint.digits index
      let leftover := leftover - dateBits
      let doubleNum := (mantissa >>> 32).toUInt32
      let mantissa := mantissa <<< 32
      if bigintNum > doubleNum then return (if bigint.sign then .less else .great, none)
      else if bigintNum < doubleNum then return (if bigint.sign then .great else .less, none)
      else compareLoop bigint leadingZeros index false mantissa (leftover - dateBits)

/-- The counter does not change the result. -/
theorem compareLoop_fst (leadingZeros i : Nat) (first : Bool) (word : UInt64) (leftover : Int) :
    (compareLoop x leadingZeros i first word leftover).map Prod.fst = compareDigits x
      (UInt64.ofNat (JSNumber.doubleSignificandSize - dateBits + leadingZeros + 1)) i first word := by
  induction i generalizing first word leftover with
  | zero =>
    rw [compareLoop, compareDigits]
    split_ifs <;> rfl
  | succ i ih =>
    cases first <;> rw [compareLoop, compareDigits] <;>
      rcases getDigit x.digits i with fault | digit
    · rfl
    · simp only [ok_bind, Bool.false_eq_true, if_false]
      split_ifs <;> first | rfl | exact ih ..
    · rfl
    · simp only [ok_bind, if_true]
      split_ifs <;> first | rfl | exact ih ..

section Loop

variable {number above i zeros w : Nat} {word : UInt64} {head : UInt32}

/-- The first different digit decides. -/
theorem digits_decide (inside : i ≤ x.digits.length) (sliced : Sliced number i above w) :
    (above < magnitude (x.digits.drop i) → number < magnitude x.digits * 2 ^ 52) ∧
      (magnitude (x.digits.drop i) < above → (magnitude x.digits + 1) * 2 ^ 52 ≤ number) := by
  obtain ⟨low, high⟩ := sliced.bounds
  have parts := Nat.div_add_mod (magnitude x.digits) (2 ^ (32 * i))
  rw [magnitude_div] at parts
  have rest := Nat.mod_lt (magnitude x.digits) (Nat.two_pow_pos (32 * i))
  constructor
  · intro less
    have step := Nat.mul_le_mul_right (2 ^ (32 * i)) less
    rw [Nat.mul_comm (magnitude _)] at step
    have scaled := Nat.mul_le_mul_right (2 ^ 52) (Nat.le_trans step (Nat.le.intro parts))
    exact Nat.lt_of_lt_of_le high scaled
  · intro less
    have step := Nat.mul_le_mul_right (2 ^ (32 * i)) less
    rw [Nat.succ_mul, Nat.mul_comm (magnitude _)] at step
    have scaled := Nat.mul_le_mul_right (2 ^ 52) (Nat.lt_of_lt_of_le (show magnitude x.digits <
      2 ^ (32 * i) * magnitude (x.digits.drop i) + 2 ^ (32 * i) by omega) step)
    exact Nat.le_trans scaled low

/-- The integer part of the double is the BigInt, and there is a fraction. -/
def Between (magnitude number scale : Nat) : Prop :=
  magnitude * scale < number ∧ number < (magnitude + 1) * scale

instance (m n s : Nat) : Decidable (Between m n s) := instDecidableAnd

/-- The result of a comparison that is decided before the end, where the counter is not read. -/
theorem decided_great {m number : Nat} {sign : Bool} {counter : Int} (greater : number < m * 2 ^ 52) :
    (.ok (if sign then .less else .great, none) : Except BigIntFault (ComparisonResult × Option Int)) =
      .ok (signedOrder sign (m * 2 ^ 52) number, if Between m number (2 ^ 52) then some counter else none) := by
  rw [signedOrder_gt greater, if_neg fun between : Between .. => Nat.lt_asymm between.1 greater]

theorem decided_less {m number : Nat} {sign : Bool} {counter : Int} (less : (m + 1) * 2 ^ 52 ≤ number) :
    (.ok (if sign then .great else .less, none) : Except BigIntFault (ComparisonResult × Option Int)) =
      .ok (signedOrder sign (m * 2 ^ 52) number, if Between m number (2 ^ 52) then some counter else none) := by
  rw [signedOrder_lt (by omega), if_neg fun between : Between .. => Nat.not_le.mpr between.2 less]

/-- The rounds after the first one take 64 away from the counter each. -/
theorem compareLoop_later (leftover : Int) (inside : i ≤ x.digits.length)
    (sliced : Sliced number i (magnitude (x.digits.drop i)) word.toNat) :
    compareLoop x zeros i false word leftover =
      .ok (signedOrder x.sign (magnitude x.digits * 2 ^ 52) number,
        if Between (magnitude x.digits) number (2 ^ 52) then some (leftover - 64 * i) else none) := by
  induction i generalizing word leftover with
  | zero =>
    have whole := sliced.whole
    have fits := sliced.fits
    rw [List.drop_zero] at whole
    have reached : word ≠ 0 ↔ Between (magnitude x.digits) number (2 ^ 52) := by
      rw [ne_eq, ← UInt64.toNat_inj, Between, UInt64.toNat_zero]
      omega
    rw [compareLoop]
    by_cases zero : word = 0
    · have same : number = magnitude x.digits * 2 ^ 52 := by
        rw [zero, UInt64.toNat_zero] at whole
        omega
      rw [if_neg (not_not_intro zero), if_neg (reached.not.mp (not_not_intro zero)), same, signedOrder_self]
    · have between := reached.mp zero
      rw [if_pos zero, if_pos between, signedOrder_lt between.1, Int.natCast_zero, Int.mul_zero, Int.sub_zero]
  | succ i ih =>
    have inside' : i < x.digits.length := inside
    obtain ⟨digit, read⟩ := exists_digit inside'
    obtain ⟨slice, rest⟩ := toNat_nextSlice word
    have next := sliced_next sliced
    have value := magnitude_drop_of_read read
    rw [← slice, ← rest] at next
    obtain ⟨great, less⟩ := digits_decide (Nat.le_of_lt inside') next
    rw [compareLoop, getDigit_eq read, ok_bind]
    dsimp only
    by_cases above : digit > (word >>> 32).toUInt32
    · have above' : (word >>> 32).toUInt32.toNat < digit.toNat := above
      rw [if_pos above]
      exact decided_great (great (by omega))
    by_cases below : digit < (word >>> 32).toUInt32
    · have below' : digit.toNat < (word >>> 32).toUInt32.toNat := below
      rw [if_neg above, if_pos below]
      exact decided_less (less (by omega))
    rw [if_neg above, if_neg below]
    have same : (word >>> 32).toUInt32.toNat = digit.toNat := by
      rw [gt_iff_lt, UInt32.lt_iff_toNat_lt] at above
      rw [UInt32.lt_iff_toNat_lt] at below
      omega
    rw [same, Nat.mul_comm, Nat.add_comm, ← value] at next
    rw [ih (leftover - dateBits - dateBits) (Nat.le_of_lt inside') next]
    have counter : leftover - dateBits - dateBits - 64 * i = leftover - 64 * (i + 1 : Nat) := by
      rw [dateBits]
      omega
    rw [counter]

/-- All rounds, for a BigInt as long as the integer part of the double. -/
theorem compareLoop_spec (top : Head x head zeros) {exponent : Nat}
    (width : 32 * x.length - zeros = exponent + 1) (bits : UInt64) :
    compareLoop x zeros x.length true (fullSignificand bits) 0 =
      .ok (signedOrder x.sign (magnitude x.digits * 2 ^ 52) ((fullSignificand bits).toNat * 2 ^ exponent),
        if Between (magnitude x.digits) ((fullSignificand bits).toNat * 2 ^ exponent) (2 ^ 52) then
          some (21 + zeros - 64 * (x.length - 1 : Nat)) else none) := by
  have positive := top.positive
  have below := top.small
  have inside : x.length - 1 ≤ x.digits.length := Nat.sub_le _ _
  have amount : (UInt64.ofNat (JSNumber.doubleSignificandSize - dateBits + zeros + 1)).toNat =
      52 - exponent % 32 := by
    rw [UInt64.toNat_ofNat', JSNumber.doubleSignificandSize, dateBits]
    omega
  obtain ⟨slice, rest⟩ := toNat_firstSlice amount (by omega) (by omega) (fullSignificand_bounds bits).2
  have first := sliced_first (fullSignificand bits).toNat exponent
  rw [← slice, ← rest, show exponent / 32 = x.length - 1 by omega] at first
  obtain ⟨great, less⟩ := digits_decide inside first
  rw [top.magnitude_top] at great less
  have start : ((JSNumber.doubleSignificandSize - dateBits + zeros + 1 : Nat) : Int) = 21 + zeros := by
    rw [JSNumber.doubleSignificandSize, dateBits]
    omega
  rw [show x.length = x.length - 1 + 1 by omega, compareLoop, getDigit_eq top.read, ok_bind]
  dsimp only
  rw [start, Nat.add_sub_cancel]
  generalize UInt64.ofNat (JSNumber.doubleSignificandSize - dateBits + zeros + 1) = leftover at *
  by_cases above : head > (fullSignificand bits >>> leftover).toUInt32
  · rw [if_pos above]
    exact decided_great (great above)
  by_cases lower : head < (fullSignificand bits >>> leftover).toUInt32
  · rw [if_neg above, if_pos lower]
    exact decided_less (less lower)
  rw [if_neg above, if_neg lower]
  have same : (fullSignificand bits >>> leftover).toUInt32.toNat = head.toNat := by
    rw [gt_iff_lt, UInt32.lt_iff_toNat_lt] at above
    rw [UInt32.lt_iff_toNat_lt] at lower
    omega
  rw [same, ← top.magnitude_top] at first
  exact compareLoop_later _ inside first

end Loop

section Widths

variable {head : UInt32} {zeros exponent : Nat}

/-- What follows the comparison of the signs, for a double of magnitude 1 or more. -/
def compareMagnitudes (bigint : BigInt) (bits : UInt64) (integerDigits : Int) :
    Except BigIntFault ComparisonResult := do
  let (res, leadingZeros) ← compareToBitsLen bigint (integerDigits + 1)
  if res = 0 then return .less
  else if res = 1 then return .great
  else
    let leftover := UInt64.ofNat (JSNumber.doubleSignificandSize - dateBits + leadingZeros + 1)
    compareDigits bigint leftover bigint.length true (fullSignificand bits)

/-- The same with the counter. -/
def assertedMagnitudes (bigint : BigInt) (bits : UInt64) (integerDigits : Int) :
    Except BigIntFault (ComparisonResult × Option Int) := do
  let (res, leadingZeros) ← compareToBitsLen bigint (integerDigits + 1)
  if res = 0 then return (.less, none)
  else if res = 1 then return (.great, none)
  else compareLoop bigint leadingZeros bigint.length true (fullSignificand bits) 0

theorem assertedMagnitudes_fst (bits : UInt64) (integerDigits : Int) :
    (assertedMagnitudes x bits integerDigits).map Prod.fst = compareMagnitudes x bits integerDigits := by
  rw [assertedMagnitudes, compareMagnitudes]
  rcases compareToBitsLen x (integerDigits + 1) with fault | ⟨res, leadingZeros⟩
  · rfl
  · simp only [ok_bind]
    split_ifs <;> first | rfl | exact compareLoop_fst ..

theorem assertedMagnitudes_spec (top : Head x head zeros) (bits : UInt64) (exponent : Nat) :
    assertedMagnitudes x bits exponent =
      .ok (signedOrder x.sign (magnitude x.digits * 2 ^ 52) ((fullSignificand bits).toNat * 2 ^ exponent),
        if Between (magnitude x.digits) ((fullSignificand bits).toNat * 2 ^ exponent) (2 ^ 52) then
          some (21 + zeros - 64 * (x.length - 1 : Nat)) else none) := by
  have positive := top.positive
  have below := top.small
  obtain ⟨low, high⟩ := fullSignificand_bounds bits
  obtain ⟨lower, upper⟩ := top.width
  have least := Nat.mul_le_mul_right (2 ^ exponent) low
  have most := Nat.mul_lt_mul_of_pos_right high (Nat.two_pow_pos exponent)
  have bitLen : ((x.length * dateBits : Nat) : Int) - zeros = ((32 * x.length - zeros : Nat) : Int) := by
    rw [dateBits]
    omega
  rw [assertedMagnitudes, compareToBitsLen]
  simp only [getDigit_eq top.read, ok_bind, top.leadingZeros, bitLen]
  rcases Nat.lt_trichotomy (exponent + 1) (32 * x.length - zeros) with longer | same | shorter
  · have power : 2 ^ (exponent + 1) * 2 ≤ 2 ^ (32 * x.length - zeros) := by
      rw [← Nat.pow_succ]
      exact Nat.pow_le_pow_right (by decide) longer
    rw [Nat.pow_succ] at power
    rw [if_pos (by omega), ← decided_great (by omega)]
    cases x.sign <;> rfl
  · rw [if_neg (by omega), if_neg (by omega)]
    exact compareLoop_spec top same.symm bits
  · have power : 2 ^ (32 * x.length - zeros) ≤ 2 ^ exponent :=
      Nat.pow_le_pow_right (by decide) (by omega)
    rw [if_neg (by omega), if_pos (by omega), ← decided_less (by omega)]
    cases x.sign <;> rfl

theorem compareMagnitudes_spec (top : Head x head zeros) (bits : UInt64) (exponent : Nat) :
    compareMagnitudes x bits exponent =
      .ok (signedOrder x.sign (magnitude x.digits * 2 ^ 52)
        ((fullSignificand bits).toNat * 2 ^ exponent)) := by
  rw [← assertedMagnitudes_fst, assertedMagnitudes_spec top]
  rfl

end Widths

/-! ## The order of the numbers -/

theorem signedOrder_mul (sign : Bool) (a b : Nat) {c : Nat} (positive : 0 < c) :
    signedOrder sign (a * c) (b * c) = signedOrder sign a b := by
  unfold signedOrder
  simp only [Nat.mul_lt_mul_right positive]

theorem orderOfDouble_finite (finite : isFinite bits = true) : orderOfDouble v bits =
    if v * one < signedScaled bits then .less
    else if v * one = signedScaled bits then .equal else .great := by
  have number : isNaN bits = false := by
    rw [isFinite, decide_eq_true_iff] at finite
    exact decide_eq_false (Nat.lt_asymm finite)
  have same : (v : ℚ) = value bits ↔ v * one = signedScaled bits := by
    rw [eq_comm, value_eq_iff, eq_comm]
  simp only [orderOfDouble, number, finite, Bool.false_eq_true, if_false, if_true, lt_value_iff, same]

/-- Numbers with the same sign are in the order of their magnitudes. -/
theorem orderOfDouble_signed (finite : isFinite bits = true) (canonical : x.Canonical)
    (sameSign : x.sign = decide (signedScaled bits < 0)) :
    orderOfDouble x.toInt bits =
      signedOrder x.sign (magnitude x.digits * one) (scaled (pattern bits)) := by
  rw [orderOfDouble_finite finite, signedOrder]
  have size := natAbs_signedScaled bits
  by_cases negative : x.sign = true
  · have below : signedScaled bits < 0 := by
      rw [negative] at sameSign
      exact of_decide_eq_true sameSign.symm
    have units : x.toInt * one = -((magnitude x.digits * one : Nat) : Int) := by
      rw [toInt_of_sign negative, Int.neg_mul, Int.natCast_mul]
    rw [units, negative]
    simp only [if_true]
    split_ifs <;> first | rfl | omega
  · rw [Bool.not_eq_true] at negative
    have above : ¬ signedScaled bits < 0 := by
      rw [negative] at sameSign
      exact of_decide_eq_false sameSign.symm
    have units : x.toInt * one = ((magnitude x.digits * one : Nat) : Int) := by
      rw [toInt_of_not_sign negative, Int.natCast_mul]
    rw [units, negative]
    simp only [Bool.false_eq_true, if_false]
    split_ifs <;> first | rfl | omega

theorem isNaN_eq (bits : UInt64) : KeyHash.isNaN bits = Binary64.isNaN bits := by
  have small : (JSNumber.exponentField bits).toNat < 2 ^ 11 := by
    rw [KeyHash.toNat_exponentField]
    exact Nat.mod_lt _ (by decide)
  have field : JSNumber.exponentField bits = 0x7FF ↔ (JSNumber.exponentField bits).toNat = 2047 :=
    UInt64.toNat_inj.symm
  have rest : bits &&& JSNumber.doubleSignificandMask ≠ 0 ↔ bits.toNat % 2 ^ 52 ≠ 0 := by
    rw [ne_eq, ← UInt64.toNat_inj, KeyHash.toNat_significand]
    exact Iff.rfl
  rw [Bool.eq_iff_iff, KeyHash.isNaN, Bool.and_eq_true, beq_iff_eq, bne_iff_ne, field, rest,
    Binary64.isNaN, decide_eq_true_iff, pattern_eq, Binary64.infinity]
  omega

/-- `num < 0` for a double that is a number. -/
theorem numberSign_eq (number : Binary64.isNaN bits = false) :
    (!KeyHash.isNaN bits && KeyHash.signbit bits && !KeyHash.isZeroDouble bits) =
      decide (signedScaled bits < 0) := by
  rw [isNaN_eq, number, isZeroDouble_eq, KeyHash.signbit_eq, Bool.eq_iff_iff, decide_eq_true_iff,
    signedScaled_neg_iff, Binary64.negative]
  simp

/-- The greatest exponent is that of the infinities. -/
theorem orderOfDouble_infinity (number : Binary64.isNaN bits = false)
    (exponent : JSNumber.exponentField bits = 0x7FF) :
    orderOfDouble v bits = if decide (signedScaled bits < 0) then .great else .less := by
  have field : (JSNumber.exponentField bits).toNat = 2047 := by rw [exponent]; rfl
  have above := pattern_eq bits
  rw [field] at above
  have least : Binary64.infinity ≤ pattern bits := by
    rw [Binary64.infinity]
    omega
  have infinite : isFinite bits = false := decide_eq_false (Nat.not_lt.mpr least)
  have nonzero : pattern bits ≠ 0 := by
    intro zero
    rw [zero, Binary64.infinity] at least
    omega
  have sign : decide (signedScaled bits < 0) = Binary64.negative bits := by
    rw [Bool.eq_iff_iff, decide_eq_true_iff, signedScaled_neg_iff]
    exact and_iff_left nonzero
  simp only [orderOfDouble, number, infinite, sign, Bool.false_eq_true, if_false]

theorem isFinite_of_exponentField (exponent : JSNumber.exponentField bits ≠ 0x7FF) :
    isFinite bits = true := by
  have small : (JSNumber.exponentField bits).toNat < 2 ^ 11 := by
    rw [KeyHash.toNat_exponentField]
    exact Nat.mod_lt _ (by decide)
  have field : (JSNumber.exponentField bits).toNat ≠ 2047 :=
    fun eq => exponent (UInt64.toNat_inj.mp eq)
  rw [isFinite, decide_eq_true_iff, pattern_eq, Binary64.infinity]
  omega

/-- A BigInt with the sign of a double, and not zero unless the double is less than 1, is compared by the
    magnitudes. -/
theorem compareMagnitudes_eq (canonical : x.Canonical) (nonzero : x.isZero = false)
    (finite : isFinite bits = true) (sameSign : x.sign = decide (signedScaled bits < 0))
    (large : 1023 ≤ (JSNumber.exponentField bits).toNat) :
    compareMagnitudes x bits ((JSNumber.exponentField bits).toNat - JSNumber.doubleExponentBias : Int) =
      .ok (orderOfDouble x.toInt bits) := by
  obtain ⟨head, zeros, top⟩ := canonical.exists_head (isZero_eq_false_iff.mp nonzero)
  have exponent : ((JSNumber.exponentField bits).toNat - JSNumber.doubleExponentBias : Int) =
      ((JSNumber.exponentField bits).toNat - 1023 : Nat) := by
    rw [JSNumber.doubleExponentBias]
    omega
  have unit : magnitude x.digits * one = magnitude x.digits * 2 ^ 52 * 2 ^ 1022 := by
    rw [one_eq, Nat.mul_assoc]
  rw [exponent, compareMagnitudes_spec top, orderOfDouble_signed finite canonical sameSign,
    scaled_pattern large, unit]
  exact congrArg Except.ok (signedOrder_mul x.sign _ _ (Nat.two_pow_pos 1022)).symm

/-- Numbers with different signs are in the order of the signs. -/
theorem orderOfDouble_otherSign (finite : isFinite bits = true) (canonical : x.Canonical)
    (otherSign : x.sign ≠ decide (signedScaled bits < 0)) :
    orderOfDouble x.toInt bits = if x.sign then .less else .great := by
  have unit : (0 : Int) < one := Int.natCast_pos.mpr Binary64.one_pos
  rw [orderOfDouble_finite finite]
  by_cases negative : x.sign = true
  · have above : ¬ signedScaled bits < 0 := by
      intro below
      rw [negative, decide_eq_true below] at otherSign
      exact otherSign rfl
    have product := Int.mul_neg_of_neg_of_pos (canonical.sign_iff.mp negative) unit
    rw [if_pos (by omega), if_pos negative]
  · have below : signedScaled bits < 0 := by
      by_contra above
      rw [Bool.not_eq_true] at negative
      rw [negative, decide_eq_false above] at otherSign
      exact otherSign rfl
    have product := Int.mul_nonneg (Int.not_lt.mp (canonical.sign_iff.not.mp negative)) (Int.le_of_lt unit)
    rw [if_neg (by omega), if_neg (by omega), if_neg negative]

/-- Every BigInt but zero is greater in magnitude than a double below 1. -/
theorem orderOfDouble_small (canonical : x.Canonical) (nonzero : x.isZero = false)
    (finite : isFinite bits = true) (sameSign : x.sign = decide (signedScaled bits < 0))
    (small : (JSNumber.exponentField bits).toNat < 1023) :
    orderOfDouble x.toInt bits = if x.sign then .less else .great := by
  have fraction : scaled (pattern bits) < one := by
    rw [← Nat.not_le, one_le_scaled_iff]
    exact Nat.not_le.mpr small
  have positive : 0 < magnitude x.digits := by
    rw [Nat.pos_iff_ne_zero, ne_eq, canonical.magnitude_eq_zero_iff]
    exact isZero_eq_false_iff.mp nonzero
  have whole := Nat.le_mul_of_pos_left one positive
  rw [orderOfDouble_signed finite canonical sameSign, signedOrder_gt (Nat.lt_of_lt_of_le fraction whole)]

/-- Zero and a double. -/
theorem orderOfDouble_zero (canonical : x.Canonical) (zero : x.isZero = true)
    (finite : isFinite bits = true) (sameSign : x.sign = decide (signedScaled bits < 0)) :
    orderOfDouble x.toInt bits = if KeyHash.isZeroDouble bits then .equal else .less := by
  have nothing := canonical.toInt_eq_zero_iff.mpr (isZero_iff.mp zero)
  have above : ¬ signedScaled bits < 0 := by
    intro below
    rw [decide_eq_true below, canonical.sign_iff, nothing] at sameSign
    exact Int.lt_irrefl 0 sameSign
  rw [orderOfDouble_finite finite, nothing, Int.zero_mul]
  by_cases nothing_left : signedScaled bits = 0
  · have same := (isZeroDouble_eq bits).trans (decide_eq_true (signedScaled_eq_zero_iff.mp nothing_left))
    rw [if_neg (by omega), if_pos nothing_left.symm, same, if_pos rfl]
  · have other := (isZeroDouble_eq bits).trans
      (decide_eq_false (signedScaled_eq_zero_iff.not.mp nothing_left))
    rw [if_pos (by omega), other]
    rfl

/-- `CompareWithNumber` is the order of the BigInt and the double. -/
theorem compareWithNumber_eq (canonical : x.Canonical) (number : JSNumber) :
    compareWithNumber x number = .ok (orderOfDouble x.toInt number.getNumber) := by
  rw [compareWithNumber]
  generalize number.getNumber = bits
  dsimp only
  by_cases number : Binary64.isNaN bits = true
  · rw [if_pos ((isNaN_eq bits).trans number), orderOfDouble, if_pos number]
  rw [Bool.not_eq_true] at number
  have isNumber : ¬ KeyHash.isNaN bits = true := by
    rw [isNaN_eq, number]
    exact Bool.false_ne_true
  rw [if_neg isNumber, numberSign_eq number]
  by_cases exponent : JSNumber.exponentField bits = 0x7FF
  · rw [if_pos exponent, orderOfDouble_infinity number exponent]
    cases decide (signedScaled bits < 0) <;> rfl
  rw [if_neg exponent]
  have finite := isFinite_of_exponentField exponent
  by_cases sameSign : x.sign = decide (signedScaled bits < 0)
  · rw [← sameSign, if_neg (by simp), if_neg (by simp)]
    by_cases zero : x.isZero = true
    · have positive : decide (signedScaled bits < 0) = false := by
        rw [← sameSign, ← Bool.not_eq_true, canonical.sign_iff,
          canonical.toInt_eq_zero_iff.mpr (isZero_iff.mp zero)]
        exact Int.lt_irrefl 0
      have sign := (numberSign_eq number).trans positive
      rw [isNaN_eq, number] at sign
      rw [zero, orderOfDouble_zero canonical zero finite sameSign, isNaN_eq, number]
      cases isZero : KeyHash.isZeroDouble bits with
      | true => rfl
      | false =>
        rw [isZero] at sign
        have signbit : KeyHash.signbit bits = false := by simpa using sign
        rw [signbit]
        rfl
    · rw [Bool.not_eq_true] at zero
      simp only [zero, Bool.false_and, Bool.false_eq_true, if_false]
      by_cases small : (JSNumber.exponentField bits).toNat < 1023
      · have fraction : ((JSNumber.exponentField bits).toNat - JSNumber.doubleExponentBias : Int) < 0 := by
          rw [JSNumber.doubleExponentBias]
          omega
        rw [if_pos fraction, orderOfDouble_small canonical zero finite sameSign small]
      · have whole : ¬ ((JSNumber.exponentField bits).toNat - JSNumber.doubleExponentBias : Int) < 0 := by
          rw [JSNumber.doubleExponentBias]
          omega
        rw [if_neg whole]
        exact compareMagnitudes_eq canonical zero finite sameSign (Nat.not_lt.mp small)
  · rw [orderOfDouble_otherSign finite canonical sameSign]
    cases sign : x.sign with
    | false =>
      have other : decide (signedScaled bits < 0) = true := by
        simpa [sign] using sameSign
      rw [other]
      rfl
    | true =>
      have other : decide (signedScaled bits < 0) = false := by
        simpa [sign] using sameSign
      rw [other]
      rfl

theorem compareWithNumber_eq_half :
    toInt ⟨false, [0, 1]⟩ = 2 ^ 32 ∧ ((2 ^ 32 : Int) : ℚ) < value 0x41F0000000080000 ∧
      compareWithNumber ⟨false, [0, 1]⟩ (.double 0x41F0000000080000) = .ok .less := by
  have canonical : Canonical ⟨false, [0, 1]⟩ := by decide
  have units : toInt ⟨false, [0, 1]⟩ * one < signedScaled 0x41F0000000080000 := by decide +kernel
  have less : orderOfDouble (toInt ⟨false, [0, 1]⟩) 0x41F0000000080000 = .less :=
    (orderOfDouble_finite (by decide)).trans (if_pos units)
  refine ⟨by decide, lt_value_iff.mpr units, ?_⟩
  exact (compareWithNumber_eq canonical _).trans (congrArg Except.ok less)

end BigInt

end ArkRuntime
