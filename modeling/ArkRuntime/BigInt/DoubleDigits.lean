import ArkRuntime.KeyHash.Doubles
import ArkRuntime.Misc.Binary64

/-!
# The digits of a double

`NumberToBigInt` and `CompareWithNumber` take the significand of a double apart into digits of 32 bits: the
first one by the exponent, every other one from the upper half of the word that is left. `Sliced` says what
is in the word while they do.
-/

namespace ArkRuntime

namespace BigInt

open Binary64

variable {bits : UInt64} {significand exponent number above word i k : Nat}

/-! ## The fields of a double -/

/-- The significand of a double with its leading one. -/
def fullSignificand (bits : UInt64) : UInt64 :=
  (bits &&& JSNumber.doubleSignificandMask) ||| JSNumber.doubleHiddenBit

theorem toNat_fullSignificand (bits : UInt64) :
    (fullSignificand bits).toNat = 2 ^ 52 + bits.toNat % 2 ^ 52 := by
  have hidden : JSNumber.doubleHiddenBit.toNat = 2 ^ 52 * 1 := rfl
  have joined := Nat.two_pow_add_eq_or_of_lt (Nat.mod_lt bits.toNat (Nat.two_pow_pos 52)) 1
  rw [fullSignificand, UInt64.toNat_or, KeyHash.toNat_significand, hidden, Nat.or_comm, ← joined,
    Nat.mul_one]

theorem fullSignificand_bounds (bits : UInt64) :
    2 ^ 52 ≤ (fullSignificand bits).toNat ∧ (fullSignificand bits).toNat < 2 ^ 53 := by
  rw [toNat_fullSignificand]
  omega

theorem pattern_eq (bits : UInt64) :
    pattern bits = (JSNumber.exponentField bits).toNat * 2 ^ 52 + bits.toNat % 2 ^ 52 := by
  rw [KeyHash.toNat_exponentField, pattern]
  omega

theorem isZeroDouble_eq (bits : UInt64) : KeyHash.isZeroDouble bits = decide (pattern bits = 0) := by
  rw [Bool.eq_iff_iff, KeyHash.isZeroDouble_iff, decide_eq_true_iff, pattern]
  omega

theorem isZeroDouble_iff_pattern (bits : UInt64) : bits <<< 1 = 0 ↔ pattern bits = 0 := by
  have zero := isZeroDouble_eq bits
  rwa [KeyHash.isZeroDouble, Bool.eq_iff_iff, beq_iff_eq, decide_eq_true_iff] at zero

/-- A double of magnitude 1 or more, by its significand and its exponent. -/
theorem scaled_pattern (large : 1023 ≤ (JSNumber.exponentField bits).toNat) :
    scaled (pattern bits) = (fullSignificand bits).toNat *
      2 ^ ((JSNumber.exponentField bits).toNat - 1023) * 2 ^ 1022 := by
  obtain ⟨low, high⟩ := fullSignificand_bounds bits
  have parts : pattern bits =
      ((JSNumber.exponentField bits).toNat - 1) * 2 ^ 52 + (fullSignificand bits).toNat := by
    rw [pattern_eq, toNat_fullSignificand]
    omega
  have exponents : (JSNumber.exponentField bits).toNat - 1 =
      (JSNumber.exponentField bits).toNat - 1023 + 1022 := by omega
  rw [parts, scaled_normal _ low (Nat.le_of_lt high), exponents, Nat.pow_add, Nat.mul_assoc]

theorem one_eq : one = 2 ^ 52 * 2 ^ 1022 := by rw [one, ← Nat.pow_add]

/-- The doubles of magnitude 1 or more are those with a greater exponent. -/
theorem one_le_scaled_iff (bits : UInt64) :
    one ≤ scaled (pattern bits) ↔ 1023 ≤ (JSNumber.exponentField bits).toNat := by
  have unit : scaled (1022 * 2 ^ 52 + 2 ^ 52) = one := by
    rw [scaled_normal 1022 (Nat.le_refl _) (by decide), one_eq]
  rw [← unit, scaled_strictMono.le_iff_le, pattern_eq]
  have rest := Nat.mod_lt bits.toNat (Nat.two_pow_pos 52)
  omega

/-! ## Slices -/

/-- The number `number / 2 ^ 52`: the digits from the `i`-th on make `above`, and the word holds what is below
    them, in units of `2 ^ -64` of the `i`-th digit. -/
structure Sliced (number i above word : Nat) : Prop where
  parts : number * 2 ^ 12 = (above * 2 ^ 64 + word) * 2 ^ (32 * i)
  fits : word < 2 ^ 64

/-- The first slice ends at a multiple of 32 bits. -/
theorem sliced_first (significand exponent : Nat) :
    Sliced (significand * 2 ^ exponent) (exponent / 32) (significand / 2 ^ (52 - exponent % 32))
      (significand * 2 ^ (64 - (52 - exponent % 32)) % 2 ^ 64) := by
  have small : exponent % 32 < 32 := Nat.mod_lt _ (by decide)
  have whole : 2 ^ 64 = 2 ^ (52 - exponent % 32) * 2 ^ (64 - (52 - exponent % 32)) := by
    rw [← Nat.pow_add, Nat.add_sub_cancel' (by omega)]
  have rest : significand * 2 ^ (64 - (52 - exponent % 32)) % 2 ^ 64 =
      significand % 2 ^ (52 - exponent % 32) * 2 ^ (64 - (52 - exponent % 32)) := by
    rw [whole, Nat.mul_mod_mul_right]
  refine ⟨?_, Nat.mod_lt _ (Nat.two_pow_pos 64)⟩
  have power : 2 ^ exponent * 2 ^ 12 = 2 ^ (64 - (52 - exponent % 32)) * 2 ^ (32 * (exponent / 32)) := by
    rw [← Nat.pow_add, ← Nat.pow_add]
    congr 1
    omega
  rw [rest, whole, ← Nat.mul_assoc, ← Nat.add_mul, Nat.mul_comm (significand / _), Nat.div_add_mod,
    Nat.mul_assoc, power, ← Nat.mul_assoc]

theorem sliced_next (sliced : Sliced number (i + 1) above word) :
    Sliced number i (above * 2 ^ 32 + word / 2 ^ 32) (word * 2 ^ 32 % 2 ^ 64) := by
  have fits := sliced.fits
  refine ⟨?_, Nat.mod_lt _ (Nat.two_pow_pos 64)⟩
  have moved : (above * 2 ^ 32 + word / 2 ^ 32) * 2 ^ 64 + word * 2 ^ 32 % 2 ^ 64 =
      (above * 2 ^ 64 + word) * 2 ^ 32 := by
    omega
  rw [moved, sliced.parts, Nat.mul_succ, Nat.pow_add, Nat.mul_comm (2 ^ (32 * i)), Nat.mul_assoc]

/-- The digits that are known bound the number. -/
theorem Sliced.bounds (sliced : Sliced number i above word) :
    above * 2 ^ (32 * i) * 2 ^ 52 ≤ number ∧ number < (above + 1) * 2 ^ (32 * i) * 2 ^ 52 := by
  have fits := sliced.fits
  have power := Nat.two_pow_pos (32 * i)
  have parts := sliced.parts
  have low : above * 2 ^ (32 * i) * 2 ^ 64 ≤ number * 2 ^ 12 := by
    rw [parts, Nat.mul_right_comm]
    exact Nat.mul_le_mul_right _ (Nat.le_add_right _ _)
  have high : number * 2 ^ 12 < (above + 1) * 2 ^ (32 * i) * 2 ^ 64 := by
    rw [parts, Nat.mul_right_comm]
    exact Nat.mul_lt_mul_of_pos_right (by omega) power
  omega

theorem Sliced.whole (sliced : Sliced number 0 above word) :
    number * 2 ^ 12 = above * 2 ^ 64 + word := by
  rw [sliced.parts, Nat.mul_zero, Nat.pow_zero, Nat.mul_one]

/-! ## Slices of words -/

theorem toNat_firstSlice {mantissa leftover : UInt64} {a : Nat} (amount : leftover.toNat = a)
    (low : 21 ≤ a) (high : a ≤ 52) (fits : mantissa.toNat < 2 ^ 53) :
    (mantissa >>> leftover).toUInt32.toNat = mantissa.toNat / 2 ^ a ∧
      (mantissa <<< (64 - leftover)).toNat = mantissa.toNat * 2 ^ (64 - a) % 2 ^ 64 := by
  have rest : (64 - leftover : UInt64).toNat = 64 - a := by
    rw [UInt64.toNat_sub, amount]
    change (2 ^ 64 - a + 64) % 2 ^ 64 = _
    omega
  have small : mantissa.toNat / 2 ^ a < 2 ^ 32 := by
    rw [Nat.div_lt_iff_lt_mul (Nat.two_pow_pos a), ← Nat.pow_add]
    exact Nat.lt_of_lt_of_le fits (Nat.pow_le_pow_right (by decide) (by omega))
  constructor
  · rw [UInt64.toNat_toUInt32, UInt64.toNat_shiftRight, Nat.shiftRight_eq_div_pow, amount,
      Nat.mod_eq_of_lt (show a < 64 by omega), Nat.mod_eq_of_lt small]
  · rw [UInt64.toNat_shiftLeft, Nat.shiftLeft_eq, rest, Nat.mod_eq_of_lt (show 64 - a < 64 by omega)]

theorem toNat_nextSlice (mantissa : UInt64) :
    (mantissa >>> 32).toUInt32.toNat = mantissa.toNat / 2 ^ 32 ∧
      (mantissa <<< 32).toNat = mantissa.toNat * 2 ^ 32 % 2 ^ 64 := by
  have word := mantissa.toNat_lt
  constructor
  · rw [UInt64.toNat_toUInt32, UInt64.toNat_shiftRight, Nat.shiftRight_eq_div_pow]
    change mantissa.toNat / 2 ^ 32 % 2 ^ 32 = _
    omega
  · rw [UInt64.toNat_shiftLeft, Nat.shiftLeft_eq]
    rfl

end BigInt

end ArkRuntime
