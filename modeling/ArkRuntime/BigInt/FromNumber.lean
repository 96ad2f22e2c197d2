import ArkRuntime.BigInt.DoubleDigits
import ArkRuntime.BigInt.ToNumber

/-!
# BigInts of doubles

`NumberToBigInt` gives the canonical BigInt of an integral double, whatever its exponent, and
`BigIntToNumber` gives the double back: below its significand a double has only zeros, so that nothing is
rounded.
-/

namespace ArkRuntime

namespace BigInt

open Binary64

variable {x : BigInt} {bits : UInt64} {v : Int}

/-! ## The loop -/

/-- The loop of `NumberToBigInt` before the digit at `i` is written. -/
structure Slicing (number len i : Nat) (s : Significand) : Prop where
  later : s.isFirstInto = false
  length : s.digits.length = len
  sliced : Sliced number i (magnitude (s.digits.drop i)) s.mantissa.toNat

variable {digits : List UInt32} {integerDigits : UInt64}

theorem magnitude_drop_set {i : Nat} (d : UInt32) (inside : i < digits.length) :
    magnitude ((digits.set i d).drop i) = d.toNat + 2 ^ 32 * magnitude (digits.drop (i + 1)) := by
  have read : (digits.set i d)[i]? = some d := by simp [inside]
  rw [magnitude_drop_of_read read, List.drop_set_of_lt (Nat.lt_succ_self i)]

theorem significandRound_first {mantissa : UInt64} (small : integerDigits.toNat < 2 ^ 11)
    (fits : mantissa.toNat < 2 ^ 53) (len : digits.length = integerDigits.toNat / 32 + 1) :
    ∃ s', significandRound integerDigits (integerDigits.toNat / 32) ⟨digits, mantissa, true⟩ = .ok s' ∧
      Slicing (mantissa.toNat * 2 ^ integerDigits.toNat) (integerDigits.toNat / 32 + 1)
        (integerDigits.toNat / 32) s' := by
  have amount : (UInt64.ofNat JSNumber.doubleSignificandSize - integerDigits % 32).toNat =
      52 - integerDigits.toNat % 32 := by
    rw [UInt64.toNat_sub, UInt64.toNat_mod]
    change (2 ^ 64 - integerDigits.toNat % 32 + 52) % 2 ^ 64 = _
    omega
  obtain ⟨slice, word⟩ := toNat_firstSlice amount (by omega) (by omega) fits
  have inside : integerDigits.toNat / 32 < digits.length := by omega
  refine ⟨⟨digits.set (integerDigits.toNat / 32) (mantissa >>>
      (UInt64.ofNat JSNumber.doubleSignificandSize - integerDigits % 32)).toUInt32,
    mantissa <<< (64 - (UInt64.ofNat JSNumber.doubleSignificandSize - integerDigits % 32)), false⟩,
    ?_, rfl, ?_, ?_⟩
  · simp only [significandRound, if_true, setDigit_of_lt _ inside, ok_bind]
    rfl
  · simp only [List.length_set, len]
  · simp only
    rw [magnitude_drop_set _ inside, List.drop_eq_nil_of_le (by omega), magnitude_nil, Nat.mul_zero,
      Nat.add_zero, slice, word]
    exact sliced_first mantissa.toNat integerDigits.toNat

theorem significandRound_next {number len i : Nat} {s : Significand} (inside : i < len)
    (slicing : Slicing number len (i + 1) s) :
    ∃ s', significandRound integerDigits i s = .ok s' ∧ Slicing number len i s' := by
  have inside' : i < s.digits.length := slicing.length ▸ inside
  obtain ⟨slice, word⟩ := toNat_nextSlice s.mantissa
  refine ⟨⟨s.digits.set i (s.mantissa >>> 32).toUInt32, s.mantissa <<< 32, false⟩, ?_, rfl, ?_, ?_⟩
  · rw [significandRound, slicing.later]
    simp only [Bool.false_eq_true, if_false, setDigit_of_lt _ inside', ok_bind]
    rfl
  · simp only [List.length_set, slicing.length]
  · simp only
    rw [magnitude_drop_set _ inside', slice, word, Nat.add_comm, Nat.mul_comm]
    exact sliced_next slicing.sliced

/-- The digits that the loop writes. -/
theorem significandLoop_spec {mantissa : UInt64} (small : integerDigits.toNat < 2 ^ 11)
    (fits : mantissa.toNat < 2 ^ 53) (len : digits.length = integerDigits.toNat / 32 + 1) :
    ∃ s, forDown (significandRound integerDigits) (integerDigits.toNat / 32 + 1)
        ⟨digits, mantissa, true⟩ = .ok s ∧
      Slicing (mantissa.toNat * 2 ^ integerDigits.toNat) (integerDigits.toNat / 32 + 1) 0 s := by
  obtain ⟨s', first, slicing⟩ := significandRound_first small fits len
  have rounds : ∀ i s, i < integerDigits.toNat / 32 →
      Slicing (mantissa.toNat * 2 ^ integerDigits.toNat) (integerDigits.toNat / 32 + 1) (i + 1) s →
      ∃ s', significandRound integerDigits i s = .ok s' ∧
        Slicing (mantissa.toNat * 2 ^ integerDigits.toNat) (integerDigits.toNat / 32 + 1) i s' :=
    fun i s below slicing => significandRound_next (by omega) slicing
  obtain ⟨s, rest, done⟩ := forDown_spec (integerDigits.toNat / 32) slicing rounds
  exact ⟨s, by rw [forDown, first]; exact rest, done⟩

/-! ## Integral doubles -/

/-- An integral double that is not zero: its exponent is not below 1023, and it is its significand, moved. -/
structure Whole (bits : UInt64) (v : Int) : Prop where
  large : 1023 ≤ (JSNumber.exponentField bits).toNat
  finite : (JSNumber.exponentField bits).toNat < 2047
  moved : (fullSignificand bits).toNat * 2 ^ ((JSNumber.exponentField bits).toNat - 1023) =
    v.natAbs * 2 ^ 52

theorem whole_of_value (finite : isFinite bits = true) (whole : value bits = v) (nonzero : v ≠ 0) :
    Whole bits v := by
  obtain ⟨magnitude, -⟩ := scaled_of_value whole
  have atLeast : one ≤ scaled (pattern bits) := by
    rw [magnitude]
    exact Nat.le_mul_of_pos_left one (by omega)
  have large := (one_le_scaled_iff bits).mp atLeast
  refine ⟨large, ?_, ?_⟩
  · rw [isFinite, decide_eq_true_iff, pattern_eq, Binary64.infinity] at finite
    omega
  · rw [scaled_pattern large, one_eq, ← Nat.mul_assoc] at magnitude
    exact Nat.eq_of_mul_eq_mul_right (Nat.two_pow_pos 1022) magnitude

theorem Whole.isInteger (whole : Whole bits v) : (JSNumber.double bits).isInteger = true := by
  have large := whole.large
  have finite := whole.finite
  have notSpecial : JSNumber.exponentField bits ≠ 0x7FF := by
    intro same
    rw [same] at finite
    exact absurd finite (by decide)
  have rest : (bits &&& JSNumber.doubleSignificandMask).toNat %
      2 ^ (52 - ((JSNumber.exponentField bits).toNat - 1023)) = 0 := by
    have low : 52 - ((JSNumber.exponentField bits).toNat - 1023) ≤ 52 := Nat.sub_le _ _
    have divides : 2 ^ (52 - ((JSNumber.exponentField bits).toNat - 1023)) ∣
        (fullSignificand bits).toNat := by
      rcases Nat.le_total ((JSNumber.exponentField bits).toNat - 1023) 52 with le | ge
      · have split : 2 ^ 52 = 2 ^ (52 - ((JSNumber.exponentField bits).toNat - 1023)) *
            2 ^ ((JSNumber.exponentField bits).toNat - 1023) := by
          rw [← Nat.pow_add, Nat.sub_add_cancel le]
        have moved := whole.moved
        rw [split, ← Nat.mul_assoc] at moved
        exact ⟨v.natAbs, by
          rw [Nat.mul_comm]
          exact Nat.eq_of_mul_eq_mul_right (Nat.two_pow_pos _) moved⟩
      · rw [Nat.sub_eq_zero_of_le ge, Nat.pow_zero]
        exact Nat.one_dvd _
    rw [toNat_fullSignificand] at divides
    rw [KeyHash.toNat_significand]
    exact Nat.mod_eq_zero_of_dvd ((Nat.dvd_add_right (Nat.pow_dvd_pow 2 low)).mp divides)
  simp only [JSNumber.isInteger, JSNumber.isIntegral, bne_iff_ne, Bool.and_eq_true]
  refine ⟨notSpecial, (if_neg ?_).trans (decide_eq_true rest)⟩
  change ¬ (JSNumber.exponentField bits).toNat < 1023
  omega

/-- The sign bit. -/
theorem signbit_eq_negative (bits : UInt64) : (bits >>> 63 != 0) = Binary64.negative bits :=
  KeyHash.signbit_eq bits

/-- `NumberToBigInt` of an integral double that is not zero. -/
theorem numberToBigInt_whole (finite : isFinite bits = true) (whole : value bits = v) (nonzero : v ≠ 0) :
    Returns (numberToBigInt (.double bits)) v := by
  have w := whole_of_value finite whole nonzero
  have large := w.large
  have below := w.finite
  obtain ⟨low, high⟩ := fullSignificand_bounds bits
  obtain ⟨magnitude_eq, sign⟩ := scaled_of_value whole
  have notZero : ¬ bits <<< 1 = 0 := by
    rw [isZeroDouble_iff_pattern, pattern_eq]
    omega
  have digits : (JSNumber.exponentField bits - UInt64.ofNat JSNumber.doubleExponentBias).toNat =
      (JSNumber.exponentField bits).toNat - 1023 := by
    rw [UInt64.toNat_sub]
    change (2 ^ 64 - 1023 + _) % 2 ^ 64 = _
    omega
  have len : ((JSNumber.exponentField bits - UInt64.ofNat JSNumber.doubleExponentBias) / 32 +
      1).toUInt32.toNat = ((JSNumber.exponentField bits).toNat - 1023) / 32 + 1 := by
    rw [UInt64.toNat_toUInt32, UInt64.toNat_add, UInt64.toNat_div, digits]
    change (((JSNumber.exponentField bits).toNat - 1023) / 32 + 1) % 2 ^ 64 % 2 ^ 32 = _
    omega
  have fresh : (List.replicate (((JSNumber.exponentField bits).toNat - 1023) / 32 + 1)
      (0 : UInt32)).length =
        (JSNumber.exponentField bits - UInt64.ofNat JSNumber.doubleExponentBias).toNat / 32 + 1 := by
    rw [List.length_replicate, digits]
  obtain ⟨s, loop, slicing⟩ := significandLoop_spec
    (show (JSNumber.exponentField bits - UInt64.ofNat JSNumber.doubleExponentBias).toNat < 2 ^ 11 by omega)
    high fresh
  rw [digits] at loop slicing
  have parts := slicing.sliced.whole
  rw [w.moved, List.drop_zero] at parts
  have fits := slicing.sliced.fits
  have value_eq : magnitude s.digits = v.natAbs := by omega
  have returned : numberToBigInt (.double bits) = rightTruncate ⟨Binary64.negative bits, s.digits⟩ := by
    have small : ((JSNumber.exponentField bits).toNat - 1023) / 32 + 1 ≤ maxSize := by
      rw [maxSize_eq]
      omega
    rw [numberToBigInt, w.isInteger]
    simp only [Bool.not_true, Bool.false_eq_true, if_false, JSNumber.getNumber, notZero, len,
      createBigint_of_le small, ok_bind, signbit_eq_negative]
    rw [show (bits &&& JSNumber.doubleSignificandMask) ||| JSNumber.doubleHiddenBit =
      fullSignificand bits from rfl, loop, ok_bind]
  have length_eq := slicing.length
  have truncated := rightTruncate_spec (x := ⟨Binary64.negative bits, s.digits⟩)
    (show 0 < s.digits.length by omega)
    (show s.digits.length ≤ maxSize by rw [maxSize_eq]; omega)
  have toInt_eq : toInt ⟨Binary64.negative bits, s.digits⟩ = v := by
    rw [toInt, value_eq, sign nonzero]
    by_cases below : v < 0
    · rw [if_pos (by simpa using below)]
      omega
    · rw [if_neg (by simpa using below)]
      omega
  rw [returned]
  exact toInt_eq ▸ truncated

/-- A significand has 53 bits: its place says how long the number is. -/
theorem exponent_of_width {significand exponent m width : Nat} (low : 2 ^ 52 ≤ significand)
    (high : significand < 2 ^ 53) (moved : significand * 2 ^ exponent = m * 2 ^ 52)
    (above : 2 ^ (width + 1) ≤ 2 * m) (below : m < 2 ^ (width + 1)) : exponent = width := by
  have power := Nat.two_pow_pos exponent
  have lower : 2 ^ exponent ≤ m := by
    have := Nat.mul_le_mul_right (2 ^ exponent) low
    omega
  have upper : m < 2 ^ (exponent + 1) := by
    have := Nat.mul_lt_mul_of_pos_right high power
    rw [Nat.pow_succ]
    omega
  have shorter : exponent < width + 1 :=
    (Nat.pow_lt_pow_iff_right (by decide)).mp (Nat.lt_of_le_of_lt lower below)
  have longer : width < exponent + 1 := by
    refine (Nat.pow_lt_pow_iff_right (a := 2) (by decide)).mp (Nat.lt_of_le_of_lt ?_ upper)
    rw [Nat.pow_succ] at above
    omega
  omega

/-- Below the significand there are only zeros. -/
theorem not_missesDigit (canonical : x.Canonical) (whole : Whole bits x.toInt) (nonzero : x.digits ≠ [0]) :
    ¬ MissesDigit x := by
  rintro ⟨above, upper, misses⟩
  obtain ⟨head, zeros, top⟩ := canonical.exists_head nonzero
  obtain rfl := top.zeros_eq_iff.mpr ⟨above, upper⟩
  have long : 3 ≤ x.length := by
    rcases misses with ⟨three, -⟩ | ⟨more, -⟩
    · omega
    · omega
  have moved := whole.moved
  rw [toInt_natAbs] at moved
  obtain ⟨low, high⟩ := fullSignificand_bounds bits
  obtain ⟨lower, higher⟩ := top.width
  rw [show 32 * x.length - 11 = 32 * x.length - 12 + 1 by omega] at lower higher
  have exponent := exponent_of_width low high moved lower higher
  have multiple : magnitude x.digits = (fullSignificand bits).toNat * 2 ^ (32 * (x.length - 2)) := by
    rw [exponent, show 32 * x.length - 12 = 32 * (x.length - 2) + 52 by omega, Nat.pow_add,
      ← Nat.mul_assoc] at moved
    exact (Nat.eq_of_mul_eq_mul_right (Nat.two_pow_pos 52) moved).symm
  have empty : ∀ k < x.length - 2, words.weightAt x.digits k = 0 := by
    intro k less
    have split : 2 ^ (32 * (x.length - 2)) = 2 ^ (32 * (x.length - 2 - k - 1)) * 2 ^ 32 * 2 ^ (32 * k) := by
      rw [← Nat.pow_add, ← Nat.pow_add,
        show 32 * (x.length - 2 - k - 1) + 32 + 32 * k = 32 * (x.length - 2) by omega]
    have digit := words.value_div_mod x.digits k
    rw [words_base, ← Nat.pow_mul] at digit
    rw [← digit]
    change magnitude x.digits / _ % _ = 0
    rw [multiple, split, ← Nat.mul_assoc, Nat.mul_div_cancel _ (Nat.two_pow_pos _), ← Nat.mul_assoc,
      Nat.mul_mod_left]
  rcases misses with ⟨three, more | ⟨half, -⟩⟩ | ⟨more, -, -, -, missed, -⟩
  · have := empty 0 (by omega)
    omega
  · have := empty 0 (by omega)
    omega
  · exact missed (empty (x.length - 4) (by omega))

/-- `NumberToBigInt` is exact for every integral double, and `BigIntToNumber` goes back, from minus zero to
    zero. -/
theorem numberToBigInt_exact (finite : isFinite bits = true) (whole : value bits = v) :
    ∃ x, numberToBigInt (.double bits) = .ok x ∧ x.Canonical ∧ x.toInt = v ∧
      ∃ number, bigIntToNumber x = .ok number ∧ number.getNumber = if v = 0 then 0 else bits := by
  by_cases zero : v = 0
  · subst zero
    have nothing := pattern_of_value_zero whole
    have parts := pattern_eq bits
    rw [nothing] at parts
    have exponent : JSNumber.exponentField bits = 0 := by
      apply UInt64.toNat_inj.mp
      change _ = 0
      omega
    have significand : (bits &&& JSNumber.doubleSignificandMask).toNat = 0 := by
      rw [KeyHash.toNat_significand]
      omega
    have integer : (JSNumber.double bits).isInteger = true := by
      simp only [JSNumber.isInteger, JSNumber.isIntegral, exponent, significand]
      decide
    refine ⟨⟨false, [0]⟩, ?_, canonical_zero, rfl, .int 0, rfl, rfl⟩
    rw [numberToBigInt, integer]
    simp only [Bool.not_true, Bool.false_eq_true, if_false]
    exact (if_pos ((isZeroDouble_iff_pattern bits).mpr nothing)).trans int32ToBigInt_zero
  · obtain ⟨x, run, canonical, rfl⟩ := numberToBigInt_whole finite whole zero
    have nonzero : x.digits ≠ [0] := fun eq => zero (canonical.toInt_eq_zero_iff.mpr eq)
    obtain ⟨p, ⟨number, back, built⟩, nearest⟩ := bigIntToNumber_builds canonical nonzero
    have near := (nearestDouble_of_isDouble canonical built).mpr
      (nearest.mpr (not_missesDigit canonical (whole_of_value finite whole zero) nonzero))
    refine ⟨x, run, canonical, rfl, number, back, ?_⟩
    rw [if_neg zero]
    exact near.unique (nearestDouble_of_value finite whole zero)

theorem numberToBigInt_exact_three :
    value 0xC450000000000001 = (-(2 ^ 70 + 2 ^ 18) : Int) ∧
      numberToBigInt (.double 0xC450000000000001) = .ok ⟨true, [0x40000, 0, 0x40]⟩ ∧
      bigIntToNumber ⟨true, [0x40000, 0, 0x40]⟩ = .ok (.double 0xC450000000000001) := by
  have whole : value 0xC450000000000001 = (-(2 ^ 70 + 2 ^ 18) : Int) :=
    value_eq_iff.mpr (by decide +kernel)
  obtain ⟨x, run, -, -, -⟩ := numberToBigInt_exact (by decide) whole
  have digits : numberToBigInt (.double 0xC450000000000001) = .ok ⟨true, [0x40000, 0, 0x40]⟩ := by
    decide +kernel
  obtain rfl := Except.ok.inj (run.symm.trans digits)
  have double : bigIntToNumber ⟨true, [0x40000, 0, 0x40]⟩ = .ok (.double 0xC450000000000001) := by
    decide +kernel
  exact ⟨whole, digits, double⟩

end BigInt

end ArkRuntime
