import ArkRuntime.KeyHash.Model

/-!
# The double of an `int`

The cast of a double that equals an `int` gives that `int` back, and no such double is `NaN`. With
`==` this is all that the hashes need of the numbers: two doubles are equal if they are the same or
both zero.
-/

namespace ArkRuntime

namespace KeyHash

variable {a b bits : UInt64} {number : Int32}

/-! ## The fields of a double -/

theorem toNat_exponentField (bits : UInt64) :
    (JSNumber.exponentField bits).toNat = bits.toNat / 2 ^ 52 % 2 ^ 11 := by
  have mask : (0x7FF : UInt64).toNat = 2 ^ 11 - 1 := rfl
  rw [JSNumber.exponentField, UInt64.toNat_and, mask, Nat.and_two_pow_sub_one_eq_mod,
    UInt64.toNat_shiftRight, Nat.shiftRight_eq_div_pow]
  rfl

theorem toNat_significand (bits : UInt64) :
    (bits &&& JSNumber.doubleSignificandMask).toNat = bits.toNat % 2 ^ 52 := by
  have mask : JSNumber.doubleSignificandMask.toNat = 2 ^ 52 - 1 := rfl
  rw [UInt64.toNat_and, mask, Nat.and_two_pow_sub_one_eq_mod]

theorem signbit_eq (bits : UInt64) : signbit bits = decide (2 ^ 63 ≤ bits.toNat) := by
  have shifted : (bits >>> 63).toNat = bits.toNat / 2 ^ 63 := by
    rw [UInt64.toNat_shiftRight, Nat.shiftRight_eq_div_pow]
    rfl
  have zero : bits >>> 63 = 0 ↔ bits.toNat / 2 ^ 63 = 0 := by
    rw [← shifted]
    exact ⟨fun eq => by rw [eq]; rfl, fun eq => UInt64.toNat_inj.mp eq⟩
  rw [signbit, bne, Bool.not_eq_eq_eq_not, ← decide_not, beq_eq_decide, decide_eq_decide, zero]
  omega

theorem isZeroDouble_iff (bits : UInt64) :
    isZeroDouble bits = true ↔ bits.toNat * 2 % 2 ^ 64 = 0 := by
  have shifted : (bits <<< 1).toNat = bits.toNat * 2 % 2 ^ 64 := by
    rw [UInt64.toNat_shiftLeft, Nat.shiftLeft_eq]
    rfl
  rw [isZeroDouble, beq_iff_eq, ← shifted]
  exact ⟨fun eq => by rw [eq]; rfl, fun eq => UInt64.toNat_inj.mp eq⟩

/-! ## The double of an `int`, by fields -/

/-- The bits of `± significand * 2 ^ exponent`, by fields. -/
theorem toNat_fields (negative : Bool) (exponent : Nat) (significand : UInt64)
    (small : exponent < 2 ^ 11) (below : significand.toNat < 2 ^ 52) :
    ((if negative then (1 : UInt64) <<< 63 else 0) ||| (UInt64.ofNat exponent <<< 52) |||
      significand).toNat = (if negative then 2 ^ 63 else 0) + exponent * 2 ^ 52 +
        significand.toNat := by
  have sign : (if negative then (1 : UInt64) <<< 63 else 0).toNat =
      2 ^ 63 * (if negative then 1 else 0) := by
    cases negative <;> rfl
  have shifted : (UInt64.ofNat exponent <<< 52).toNat = 2 ^ 52 * exponent := by
    have fits : exponent < 2 ^ 64 := by omega
    rw [UInt64.toNat_shiftLeft, UInt64.toNat_ofNat_of_lt' fits, Nat.shiftLeft_eq,
      show (52 : UInt64).toNat % 64 = 52 from rfl]
    omega
  have joined : 2 ^ 52 * exponent ||| significand.toNat = 2 ^ 52 * exponent + significand.toNat :=
    (Nat.two_pow_add_eq_or_of_lt below exponent).symm
  rw [UInt64.toNat_or, UInt64.toNat_or, sign, shifted, Nat.or_assoc, joined,
    ← Nat.two_pow_add_eq_or_of_lt (by omega)]
  cases negative <;> simp only [if_true, Bool.false_eq_true, if_false] <;> omega

/-- The significand of a number below `2 ^ 32` has `52` bits after the leading one. -/
theorem scaled_bounds {magnitude : Nat} (nonzero : magnitude ≠ 0) (small : magnitude < 2 ^ 32) :
    magnitude.log2 < 32 ∧ 2 ^ 52 ≤ magnitude * 2 ^ (52 - magnitude.log2) ∧
      magnitude * 2 ^ (52 - magnitude.log2) < 2 ^ 53 := by
  have log : magnitude.log2 < 32 := (Nat.log2_lt nonzero).mpr small
  have lower : 2 ^ magnitude.log2 ≤ magnitude := Nat.log2_self_le nonzero
  have upper : magnitude < 2 ^ (magnitude.log2 + 1) := Nat.lt_log2_self
  refine ⟨log, ?_, ?_⟩
  · calc 2 ^ 52 = 2 ^ magnitude.log2 * 2 ^ (52 - magnitude.log2) := by
          rw [← Nat.pow_add]; congr 1; omega
      _ ≤ magnitude * 2 ^ (52 - magnitude.log2) := Nat.mul_le_mul_right _ lower
  · calc magnitude * 2 ^ (52 - magnitude.log2)
        < 2 ^ (magnitude.log2 + 1) * 2 ^ (52 - magnitude.log2) :=
          Nat.mul_lt_mul_of_pos_right upper (Nat.two_pow_pos _)
      _ = 2 ^ 53 := by rw [← Nat.pow_add]; congr 1; omega

theorem natAbs_bounds (notZero : number ≠ 0) :
    number.toInt.natAbs ≠ 0 ∧ number.toInt.natAbs < 2 ^ 32 := by
  have above := number.toInt_lt
  have below := number.le_toInt
  refine ⟨fun eq => notZero (Int32.toInt_inj.mp ?_), by omega⟩
  rw [Int.natAbs_eq_zero.mp eq]
  rfl

theorem toNat_doubleOfInt (notZero : number ≠ 0) :
    (JSNumber.doubleOfInt number).toNat = (if number < 0 then 2 ^ 63 else 0) +
      (number.toInt.natAbs.log2 + 1023) * 2 ^ 52 +
        (number.toInt.natAbs * 2 ^ (52 - number.toInt.natAbs.log2) - 2 ^ 52) := by
  obtain ⟨nonzero, small⟩ := natAbs_bounds notZero
  obtain ⟨log, lower, upper⟩ := scaled_bounds nonzero small
  have rest : (UInt64.ofNat (number.toInt.natAbs * 2 ^ (52 - number.toInt.natAbs.log2)) &&&
      JSNumber.doubleSignificandMask).toNat =
        number.toInt.natAbs * 2 ^ (52 - number.toInt.natAbs.log2) - 2 ^ 52 := by
    have fits : number.toInt.natAbs * 2 ^ (52 - number.toInt.natAbs.log2) < UInt64.size :=
      Nat.lt_trans upper (by decide)
    rw [toNat_significand, UInt64.toNat_ofNat_of_lt' fits]
    omega
  have fields := toNat_fields (decide (number < 0)) (number.toInt.natAbs.log2 + 1023)
    (UInt64.ofNat (number.toInt.natAbs * 2 ^ (52 - number.toInt.natAbs.log2)) &&&
      JSNumber.doubleSignificandMask) (by omega) (by omega)
  rw [rest] at fields
  simp only [decide_eq_true_eq] at fields
  rw [← fields, JSNumber.doubleOfInt]
  exact congrArg UInt64.toNat (if_neg nonzero)

/-! ## Casts and equality -/

/-- What the fields of the double of an `int` other than zero are. -/
theorem fields_doubleOfInt (notZero : number ≠ 0) :
    (JSNumber.exponentField (JSNumber.doubleOfInt number)).toNat =
        number.toInt.natAbs.log2 + 1023 ∧
      (JSNumber.doubleOfInt number &&& JSNumber.doubleSignificandMask).toNat + 2 ^ 52 =
        number.toInt.natAbs * 2 ^ (52 - number.toInt.natAbs.log2) ∧
      signbit (JSNumber.doubleOfInt number) = decide (number < 0) := by
  obtain ⟨nonzero, small⟩ := natAbs_bounds notZero
  obtain ⟨log, lower, upper⟩ := scaled_bounds nonzero small
  have bits := toNat_doubleOfInt notZero
  rw [toNat_exponentField, toNat_significand, signbit_eq, decide_eq_decide]
  generalize number.toInt.natAbs * 2 ^ (52 - number.toInt.natAbs.log2) = scaled at *
  generalize (JSNumber.doubleOfInt number).toNat = word at *
  generalize number.toInt.natAbs.log2 = digits at *
  by_cases negative : number < 0
  · rw [if_pos negative] at bits
    refine ⟨by omega, by omega, fun _ => negative, fun _ => by omega⟩
  · rw [if_neg negative] at bits
    refine ⟨by omega, by omega, fun _ => by omega, fun less => absurd less negative⟩

theorem scaled_div (magnitude bias : Nat) {digits size : Nat} (fits : digits ≤ size) :
    magnitude * 2 ^ (size - digits) * 2 ^ (digits + bias) / 2 ^ (bias + size) = magnitude := by
  have exponents : size - digits + (digits + bias) = bias + size := by omega
  rw [Nat.mul_assoc, ← Nat.pow_add, exponents]
  exact Nat.mul_div_cancel _ (Nat.two_pow_pos _)

theorem integerPart_doubleOfInt (notZero : number ≠ 0) :
    integerPart (JSNumber.doubleOfInt number) = number.toInt := by
  obtain ⟨exponent, significand, sign⟩ := fields_doubleOfInt notZero
  obtain ⟨nonzero, small⟩ := natAbs_bounds notZero
  obtain ⟨log, -, -⟩ := scaled_bounds nonzero small
  have hidden : JSNumber.doubleHiddenBit.toNat = 2 ^ 52 := rfl
  have cancel := scaled_div number.toInt.natAbs JSNumber.doubleExponentBias
    (show number.toInt.natAbs.log2 ≤ JSNumber.doubleSignificandSize from by
      rw [JSNumber.doubleSignificandSize]; omega)
  have positive : number.toInt.natAbs.log2 + 1023 ≠ 0 := by omega
  rw [integerPart, exponent, sign]
  simp only [if_neg positive, hidden, significand]
  rw [show number.toInt.natAbs.log2 + 1023 =
    number.toInt.natAbs.log2 + JSNumber.doubleExponentBias from rfl,
    show (52 : Nat) = JSNumber.doubleSignificandSize from rfl, cancel]
  have order : number < 0 ↔ number.toInt < 0 := Int32.lt_iff_toInt_lt
  simp only [decide_eq_true_eq, order]
  omega

theorem exponentField_doubleOfInt_ne {number : Int32} (zero : number ≠ 0) :
    JSNumber.exponentField (JSNumber.doubleOfInt number) ≠ 0x7FF := by
  obtain ⟨nonzero, small⟩ := natAbs_bounds zero
  have exponent := (fields_doubleOfInt zero).1
  have log := (scaled_bounds nonzero small).1
  intro eq
  rw [eq] at exponent
  have : (0x7FF : UInt64).toNat = 2047 := rfl
  omega

theorem not_isNaN_doubleOfInt (number : Int32) : isNaN (JSNumber.doubleOfInt number) = false := by
  by_cases zero : number = 0
  · rw [zero]
    decide
  · rw [isNaN, beq_eq_false_iff_ne.mpr (exponentField_doubleOfInt_ne zero), Bool.false_and]

variable (platform : Platform)

theorem castInt32_of_isZero (zero : isZeroDouble bits = true) :
    platform.castInt32 bits = 0 := by
  have word := (isZeroDouble_iff bits).mp zero
  have exponent : JSNumber.exponentField bits = 0 := by
    apply UInt64.toNat_inj.mp
    rw [toNat_exponentField, UInt64.toNat_zero]
    omega
  have significand : (bits &&& JSNumber.doubleSignificandMask).toNat = 0 := by
    rw [toNat_significand]
    omega
  have part : integerPart bits = 0 := by
    rw [integerPart, exponent, significand]
    simp
  rw [Platform.castInt32, exponent, part]
  rfl

/-- The double of an `int` is cast back to it. -/
theorem castInt32_doubleOfInt (number : Int32) :
    platform.castInt32 (JSNumber.doubleOfInt number) = number := by
  by_cases zero : number = 0
  · rw [zero]
    exact castInt32_of_isZero platform (by decide)
  · have range : -2 ^ 31 ≤ number.toInt ∧ number.toInt < 2 ^ 31 :=
      ⟨number.le_toInt, number.toInt_lt⟩
    rw [Platform.castInt32, if_neg (exponentField_doubleOfInt_ne zero), integerPart_doubleOfInt zero]
    exact (if_pos range).trans (Int32.ofInt_toInt number)

end KeyHash

end ArkRuntime
