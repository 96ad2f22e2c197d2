import ArkRuntime.BigInt.LongDivision

/-!
# `Divide` and `Remainder`

The divisor is moved to the left until its top digit is normalized, the dividend with it; the long
division then leaves quotient and remainder of the moved numbers (`bigintDivisor_spec`). A divisor
of one digit is divided by digit by digit (`uint32Divisor_spec`). Signs are put on afterwards, so
that the quotient is truncated towards zero.
-/

namespace ArkRuntime

namespace BigInt

variable {x y : BigInt} {digits : List UInt32} {i n : Nat}

/-! ## Moving the operands -/

/-- The length of a formatted operand. -/
def formattedLength (x : BigInt) (addOne : Bool) : Nat := if addOne then x.length + 1 else x.length

theorem formatLeftShift_spec {shift : UInt32} (x : BigInt) (addOne : Bool) (small : shift.toNat < 32)
    (size : formattedLength x addOne ≤ maxSize)
    (fits : 2 ^ shift.toNat * magnitude x.digits < (2 ^ 32) ^ formattedLength x addOne) :
    ∃ r, formatLeftShift shift x addOne = .ok r ∧ r.digits.length = formattedLength x addOne ∧
      magnitude r.digits = 2 ^ shift.toNat * magnitude x.digits := by
  have created : createBigint (if addOne then x.length + 1 else x.length) =
      .ok ⟨false, List.replicate (formattedLength x addOne) 0⟩ := createBigint_of_le size
  have longer : x.digits.length ≤ formattedLength x addOne := by
    unfold formattedLength length
    split <;> omega
  rcases Nat.eq_zero_or_pos shift.toNat with none' | positive
  · have zero : shift = 0 := UInt32.toNat_inj.mp none'
    rw [none', pow_zero, Nat.one_mul]
    rcases addOne with _ | _
    · exact ⟨x, by simp [formatLeftShift, zero], rfl, rfl⟩
    · refine ⟨⟨false, x.digits ++ (List.replicate (x.length + 1) 0).drop x.length⟩, ?_, ?_, ?_⟩
      · rw [formatLeftShift, if_neg (by simp), created, ok_bind, if_pos zero]
        rfl
      · simp [formattedLength, length]
      · have : magnitude ((List.replicate (x.length + 1) 0).drop x.length) = 0 :=
          drop_replicate_zero _ _
        show words.value (x.digits ++ _) = words.value x.digits
        rw [words.value_append]
        change _ + _ * magnitude ((List.replicate (x.length + 1) 0).drop x.length) = _
        rw [this, Nat.mul_zero, Nat.add_zero]
  · have nonzero : shift ≠ 0 := fun zero => by simp [zero] at positive
    obtain ⟨out, ran, len, value⟩ := shiftLeftDigits_spec positive small
      (show x.digits.length + 0 ≤ formattedLength x addOne from longer) (by simpa using fits)
    refine ⟨⟨false, out⟩, ?_, len, by simpa using value⟩
    simp only [formatLeftShift, nonzero, and_false, if_false, created, ok_bind, ran, pure_eq_ok]

theorem unformattedRightShift_spec {shift : UInt32} (small : shift.toNat < 32)
    (nonempty : 0 < x.digits.length) :
    ∃ r, unformattedRightShift x shift = .ok r ∧ r.digits.length = x.digits.length ∧
      magnitude r.digits = magnitude x.digits / 2 ^ shift.toNat := by
  obtain ⟨out, ran, len, -, value⟩ := rightShift_spec (reads_id x.digits) small nonempty
    (Nat.sub_le _ _)
  refine ⟨{ x with digits := out }, ?_, len, ?_⟩
  · simp only [unformattedRightShift, ran, ok_bind, pure_eq_ok]
  · rwa [Nat.sub_zero, ← len, magnitude_take_length, pow_zero, Nat.one_mul] at value

/-! ## A divisor of several digits -/

/-- The top digit of a divisor, after its leading zeros were moved out. -/
theorem normalized_top {top : UInt32} (nonzero : top ≠ 0) (read : digits[n]? = some top)
    (len : digits.length = n + 1) :
    2 ^ (countLeadingZeros top).toNat * magnitude digits < (2 ^ 32) ^ (n + 1) ∧
      2 ^ 31 * (2 ^ 32) ^ n ≤ 2 ^ (countLeadingZeros top).toNat * magnitude digits := by
  obtain ⟨small, large, fits⟩ := countLeadingZeros_spec nonzero
  have value : magnitude digits = magnitude (digits.take n) + (2 ^ 32) ^ n * top.toNat := by
    rw [← magnitude_take_length, len, magnitude_take_succ read]
  have low := magnitude_take_lt digits n
  constructor
  · -- the top digit stays below the base, and so does its successor, a multiple of the same power
    have next : (top.toNat + 1) * 2 ^ (countLeadingZeros top).toNat ≤ 2 ^ 32 := by
      have width : 2 ^ (32 - (countLeadingZeros top).toNat) * 2 ^ (countLeadingZeros top).toNat =
          2 ^ 32 := by
        rw [← pow_add]
        congr 1
        omega
      rw [← width] at fits ⊢
      exact Nat.mul_le_mul_right _ (Nat.lt_of_mul_lt_mul_right fits)
    calc 2 ^ (countLeadingZeros top).toNat * magnitude digits
        < 2 ^ (countLeadingZeros top).toNat * ((2 ^ 32) ^ n * (top.toNat + 1)) := by
          apply Nat.mul_lt_mul_of_pos_left _ (Nat.pow_pos (by norm_num))
          rw [value, Nat.mul_add, Nat.mul_one]
          omega
      _ = (top.toNat + 1) * 2 ^ (countLeadingZeros top).toNat * (2 ^ 32) ^ n := by ring
      _ ≤ 2 ^ 32 * (2 ^ 32) ^ n := Nat.mul_le_mul_right _ next
      _ = (2 ^ 32) ^ (n + 1) := by ring
  · calc 2 ^ 31 * (2 ^ 32) ^ n
        ≤ top.toNat * 2 ^ (countLeadingZeros top).toNat * (2 ^ 32) ^ n :=
          Nat.mul_le_mul_right _ large
      _ = 2 ^ (countLeadingZeros top).toNat * ((2 ^ 32) ^ n * top.toNat) := by ring
      _ ≤ 2 ^ (countLeadingZeros top).toNat * magnitude digits := by
          apply Nat.mul_le_mul_left
          omega

/-- The top digit of a number that is large enough. -/
theorem top_digit_of_le {top : UInt32} (read : digits[n]? = some top) (len : digits.length = n + 1)
    (large : 2 ^ 31 * (2 ^ 32) ^ n ≤ magnitude digits) : 2 ^ 31 ≤ top.toNat := by
  have value : magnitude digits = magnitude (digits.take n) + (2 ^ 32) ^ n * top.toNat := by
    rw [← magnitude_take_length, len, magnitude_take_succ read]
  have low := magnitude_take_lt digits n
  have : 2 ^ 31 * (2 ^ 32) ^ n < (top.toNat + 1) * (2 ^ 32) ^ n := by
    rw [Nat.add_mul, Nat.one_mul, Nat.mul_comm top.toNat]
    omega
  exact Nat.le_of_lt_succ (Nat.lt_of_mul_lt_mul_right this)

/-- What `Divide` or `Remainder` asks of a division of `a` by `b`. -/
def divisionResult (wantRemainder : Bool) (a b : Nat) : Nat := if wantRemainder then a % b else a / b

theorem newQuotient_spec (wantRemainder : Bool) (size : n ≤ maxSize) :
    ∃ quotient, newQuotient wantRemainder n = .ok quotient ∧
      quotient.isSome = !wantRemainder ∧ QuotientDigits quotient n n 0 := by
  rcases wantRemainder with _ | _
  · refine ⟨some (List.replicate n 0), ?_, rfl, ?_⟩
    · simp only [newQuotient, Bool.false_eq_true, if_false, createBigint_of_le size, ok_bind,
        pure_eq_ok]
    · intro digits eq
      cases eq
      simp [magnitude_replicate]
  · exact ⟨none, rfl, rfl, fun _ no => by cases no⟩

/-- A number of at most `MAXSIZE` digits, not yet truncated. -/
structure Digits (r : BigInt) (value : Nat) : Prop where
  positive : 0 < r.digits.length
  size : r.digits.length ≤ maxSize
  value : magnitude r.digits = value

theorem moved_div {zeros a b quotient rest : Nat} (sum : 2 ^ zeros * a = quotient * (2 ^ zeros * b) + rest)
    (below : rest < 2 ^ zeros * b) : quotient = a / b ∧ rest = 2 ^ zeros * (a % b) := by
  have positive : 0 < 2 ^ zeros := Nat.pow_pos (by norm_num)
  have division := (Nat.div_mod_unique (Nat.lt_of_le_of_lt (Nat.zero_le _) below)).mpr
    ⟨show rest + 2 ^ zeros * b * quotient = 2 ^ zeros * a by rw [sum, Nat.mul_comm quotient]; omega,
      below⟩
  rw [Nat.mul_div_mul_left _ _ positive, Nat.mul_mod_mul_left] at division
  exact ⟨division.1.symm, division.2.symm⟩

/-- The long division. -/
theorem bigintDivisor_spec (cy : y.Canonical) (long : 2 ≤ y.length) (longer : y.length ≤ x.length)
    (size : x.length < maxSize) (wantRemainder : Bool) :
    ∃ r, divideAndRemainderWithBigintDivisor x y wantRemainder = .ok r ∧
      Digits r (divisionResult wantRemainder (magnitude x.digits) (magnitude y.digits)) := by
  obtain ⟨k, lenY⟩ : ∃ k, y.digits.length = k + 2 := ⟨y.length - 2, by unfold length at *; omega⟩
  have notZero : y.digits ≠ [0] := fun eq => by simp [eq] at lenY
  obtain ⟨top, readTop, topPos⟩ := cy.exists_top notZero
  have nonzero := (weight_pos_iff top).mp topPos
  have lenY' : y.length = k + 2 := lenY
  rw [lenY', show k + 2 - 1 = k + 1 by omega] at readTop
  obtain ⟨m, lenX⟩ : ∃ m, x.length = y.length + m := ⟨x.length - y.length, by omega⟩
  obtain ⟨small, -, -⟩ := countLeadingZeros_spec nonzero
  obtain ⟨fits, large⟩ := normalized_top nonzero readTop lenY
  set zeros := countLeadingZeros top with hZeros
  obtain ⟨v, ranV, lenV, valueV⟩ := formatLeftShift_spec y false small
    (show y.length ≤ maxSize by omega)
    (show 2 ^ zeros.toNat * magnitude y.digits < (2 ^ 32) ^ y.length by rw [lenY']; exact fits)
  have xFits : 2 ^ zeros.toNat * magnitude x.digits < (2 ^ 32) ^ (x.length + 1) := by
    rw [pow_succ, Nat.mul_comm ((2 ^ 32) ^ x.length)]
    apply Nat.mul_lt_mul'' _ (magnitude_lt x.digits)
    exact Nat.pow_lt_pow_right (by norm_num) small
  obtain ⟨u, ranU, lenU, valueU⟩ := formatLeftShift_spec x true small
    (show x.length + 1 ≤ maxSize by omega) xFits
  change v.digits.length = y.length at lenV
  change u.digits.length = x.length + 1 at lenU
  obtain ⟨v1, readV⟩ := exists_digit (show k + 1 < v.digits.length by omega)
  have normalized : 2 ^ 31 ≤ v1.toNat := by
    apply top_digit_of_le readV (by omega)
    rw [valueV]
    exact large
  obtain ⟨quotient, newQ, isSome, digits⟩ := newQuotient_spec wantRemainder
    (show m + 1 ≤ maxSize by omega)
  have start : Divided v.digits (magnitude u.digits) (m + 1) (m + 1) (!wantRemainder)
      ⟨u.digits, List.replicate (y.length + 1) 0, quotient⟩ := by
    refine ⟨by simp only; omega, by simp [lenV], ?_, isSome, 0, by simp, digits⟩
    simp only
    rw [valueU, valueV, Nat.mul_assoc]
    apply Nat.mul_lt_mul_of_pos_left _ (Nat.pow_pos (by norm_num))
    calc magnitude x.digits < (2 ^ 32) ^ x.length := magnitude_lt _
      _ = (2 ^ 32) ^ (y.length - 1) * (2 ^ 32) ^ (m + 1) := by
          rw [← pow_add]
          congr 1
          omega
      _ ≤ magnitude y.digits * (2 ^ 32) ^ (m + 1) :=
          Nat.mul_le_mul_right _ (cy.pow_le_magnitude notZero)
  obtain ⟨s, ran, inv⟩ := forDown_spec
    (I := fun i s => Divided v.digits (magnitude u.digits) (m + 1) i (!wantRemainder) s) (m + 1) start
    fun i s below inv => longDivisionRound_spec (by omega) readV normalized below inv
  obtain ⟨lenU', -, below, isSome', Q, sum, digits'⟩ := inv
  rw [pow_zero, Nat.mul_one, valueV] at below
  rw [valueU, valueV] at sum
  obtain ⟨divided, rest⟩ := moved_div sum below
  have newQ' : newQuotient wantRemainder (x.length - y.length + 1) = .ok quotient := by
    rw [lenX, Nat.add_sub_cancel_left]
    exact newQ
  have readTop' : getDigit y.digits (y.length - 1) = .ok top := getDigit_eq (by rwa [lenY'])
  have readV' : getDigit v.digits (y.length - 1) = .ok v1 := getDigit_eq (by rwa [lenY'])
  have ran' : forDown (longDivisionRound v.digits y.length v1) (x.length - y.length + 1)
      ⟨u.digits, List.replicate (y.length + 1) 0, quotient⟩ = .ok s := by
    rw [lenV] at ran
    rw [lenX, Nat.add_sub_cancel_left]
    exact ran
  simp only [divideAndRemainderWithBigintDivisor, newQ', readTop', ← hZeros, ranV, ranU,
    createBigint_of_le (show y.length + 1 ≤ maxSize by omega), readV', ran', ok_bind, pure_eq_ok]
  rcases s with ⟨u', qv', _ | out⟩
  · have want : wantRemainder = true := by simpa using isSome'
    have inside : 0 < u'.length := by simp only at lenU'; omega
    obtain ⟨r, shifted, lenR, valueR⟩ := unformattedRightShift_spec
      (x := { u with digits := u' }) small inside
    refine ⟨r, shifted, by simp only at lenR lenU'; omega, by simp only at lenR lenU'; omega, ?_⟩
    simp only at rest valueR
    rw [valueR, rest, Nat.mul_div_cancel_left _ (Nat.pow_pos (by norm_num)), want]
    rfl
  · have want : wantRemainder = false := by simpa using isSome'
    obtain ⟨lenOut, valueOut, -⟩ := digits' out rfl
    refine ⟨⟨false, out⟩, rfl, by simp only; omega, by simp only; omega, ?_⟩
    rw [want]
    exact valueOut.trans divided

/-! ## A divisor of one digit -/

/-- The state of the short division of `digits` by `d` before the digit `i - 1` of the quotient. -/
structure ShortDivided (digits : List UInt32) (d : UInt32) (i : Nat) (asked : Bool)
    (s : ShortDivision) : Prop where
  below : s.r.toNat < d.toNat
  asked : s.quotient.isSome = asked
  value : ∃ quotient, magnitude digits =
      quotient * d.toNat + ((2 ^ 32) ^ i * s.r.toNat + magnitude (digits.take i)) ∧
    QuotientDigits s.quotient digits.length i quotient

theorem shortDivisionRound_spec {d : UInt32} {asked : Bool} {s : ShortDivision} (nonzero : d ≠ 0)
    (inside : i < digits.length) (before : ShortDivided digits d (i + 1) asked s) :
    ∃ s', shortDivisionRound digits d i s = .ok s' ∧ ShortDivided digits d i asked s' := by
  obtain ⟨below, isAsked, Q, sum, zeros⟩ := before
  obtain ⟨digit, read⟩ := exists_digit inside
  obtain ⟨q, r, ran, quotient, rest⟩ := divideAndRemainder_spec digit nonzero below
  have split := Nat.div_add_mod' (s.r.toNat * 2 ^ 32 + digit.toNat) d.toNat
  rw [← quotient, ← rest] at split
  obtain ⟨quotient', stored, isSome, zeros'⟩ := storeQuotient_spec q inside zeros
  refine ⟨⟨r, quotient'⟩, ?_, ?_, by simpa [isAsked] using isSome, Q + (2 ^ 32) ^ i * q.toNat, ?_,
    zeros'⟩
  · simp only [shortDivisionRound, getDigit_eq read, ran, stored, ok_bind, pure_eq_ok]
  · simp only
    rw [rest]
    exact Nat.mod_lt _ (by omega)
  · rw [magnitude_take_succ read] at sum
    simp only
    rw [sum]
    zify at split ⊢
    linear_combination -(2 ^ 32) ^ i * split

theorem uint32Divisor_spec {d : UInt32} (nonzero : d ≠ 0) (nonempty : 0 < x.length)
    (size : x.length ≤ maxSize) (wantRemainder : Bool) :
    ∃ r, divideAndRemainderWithUint32Divisor x d wantRemainder = .ok r ∧
      Digits r (divisionResult wantRemainder (magnitude x.digits) d.toNat) := by
  have positive : 0 < d.toNat := Nat.pos_of_ne_zero fun zero => nonzero (UInt32.toNat_inj.mp zero)
  obtain ⟨quotient, newQ, isSome, digits⟩ := newQuotient_spec wantRemainder size
  have start : ShortDivided x.digits d x.digits.length (!wantRemainder) ⟨0, quotient⟩ :=
    ⟨positive, isSome, 0, by simp, digits⟩
  obtain ⟨s, ran, below, isSome', Q, sum, digits'⟩ := forDown_spec
    (I := fun i s => ShortDivided x.digits d i (!wantRemainder) s) x.digits.length start
    fun i s inside inv => shortDivisionRound_spec nonzero inside inv
  rw [pow_zero, Nat.one_mul, List.take_zero, magnitude_nil, Nat.add_zero] at sum
  have division := (Nat.div_mod_unique positive).mpr
    ⟨show s.r.toNat + d.toNat * Q = magnitude x.digits by rw [sum, Nat.mul_comm]; omega, below⟩
  have ran' : forDown (shortDivisionRound x.digits d) x.length ⟨0, quotient⟩ = .ok s := ran
  simp only [divideAndRemainderWithUint32Divisor, newQ, ran', ok_bind, pure_eq_ok]
  rcases s with ⟨r, _ | out⟩
  · have want : wantRemainder = true := by simpa using isSome'
    refine ⟨⟨false, [r]⟩, rfl, by simp, by simp [maxSize_eq], ?_⟩
    rw [want]
    simpa [divisionResult] using division.2.symm
  · have want : wantRemainder = false := by simpa using isSome'
    obtain ⟨lenOut, valueOut, -⟩ := digits' out rfl
    refine ⟨⟨false, out⟩, rfl, ?_, ?_, ?_⟩
    · simp only
      rwa [lenOut]
    · simp only
      rwa [lenOut]
    · rw [want]
      exact valueOut.trans division.1.symm

/-- The dividend of a long division gets another digit, which `CreateBigint` must allow. -/
theorem bigintDivisor_throws (cy : y.Canonical) (long : 2 ≤ y.length) (longer : y.length ≤ x.length)
    (full : x.length = maxSize) (wantRemainder : Bool) :
    divideAndRemainderWithBigintDivisor x y wantRemainder = .error sizeExceeded := by
  obtain ⟨k, lenY⟩ : ∃ k, y.digits.length = k + 2 := ⟨y.length - 2, by unfold length at *; omega⟩
  have lenY' : y.length = k + 2 := lenY
  have notZero : y.digits ≠ [0] := fun eq => by simp [eq] at lenY
  obtain ⟨top, readTop, topPos⟩ := cy.exists_top notZero
  have nonzero := (weight_pos_iff top).mp topPos
  obtain ⟨small, -, -⟩ := countLeadingZeros_spec nonzero
  rw [lenY', show k + 2 - 1 = k + 1 by omega] at readTop
  obtain ⟨fits, -⟩ := normalized_top nonzero readTop lenY
  obtain ⟨v, ranV, -, -⟩ := formatLeftShift_spec y false small
    (show y.length ≤ maxSize from cy.size)
    (show 2 ^ (countLeadingZeros top).toNat * magnitude y.digits < (2 ^ 32) ^ y.length by
      rw [lenY']; exact fits)
  have throws : formatLeftShift (countLeadingZeros top) x true = .error sizeExceeded := by
    have created : createBigint (x.length + 1) = .error sizeExceeded := if_pos (by omega)
    rw [formatLeftShift, if_neg (by simp), if_pos rfl, created, error_bind]
  obtain ⟨quotient, newQ, -, -⟩ := newQuotient_spec wantRemainder
    (show x.length - y.length + 1 ≤ maxSize by omega)
  have readTop' : getDigit y.digits (y.length - 1) = .ok top := getDigit_eq (by rwa [lenY'])
  simp only [divideAndRemainderWithBigintDivisor, newQ, readTop', ranV, throws, ok_bind, error_bind]

/-! ## Signs -/

/-- The division of `x` by `y` does not need a dividend of more than `MAXSIZE` digits. -/
def DivisionFits (x y : BigInt) : Prop :=
  x.length < maxSize ∨ y.length = 1 ∨ magnitude x.digits ≤ magnitude y.digits

theorem divideDigits_spec (cx : x.Canonical) (cy : y.Canonical) (nonzero : y.digits ≠ [0])
    (less : magnitude y.digits < magnitude x.digits) (fits : DivisionFits x y)
    (wantRemainder : Bool) :
    ∃ r, divideDigits x y wantRemainder = .ok r ∧
      Digits r (divisionResult wantRemainder (magnitude x.digits) (magnitude y.digits)) := by
  have longer := cy.length_le_of_magnitude_le cx.positive (Nat.le_of_lt less)
  have yPositive := cy.positive
  by_cases single : y.length = 1
  · obtain ⟨d, eq⟩ := List.length_eq_one_iff.mp single
    have dNonzero : d ≠ 0 := fun zero => nonzero (by rw [eq, zero])
    have read : getDigit y.digits 0 = .ok d := getDigit_eq (by rw [eq]; rfl)
    have value : magnitude y.digits = d.toNat := by rw [eq, magnitude_singleton]
    rw [divideDigits, if_pos (by simpa [isUint32] using single), read, ok_bind, value]
    exact uint32Divisor_spec dNonzero cx.positive cx.size wantRemainder
  · have size : x.length < maxSize := by
      rcases fits with size | one | le
      · exact size
      · exact absurd one single
      · omega
    rw [divideDigits, if_neg (by simpa [isUint32] using single)]
    exact bigintDivisor_spec cy (by omega) longer size wantRemainder

theorem Digits.truncate {r : BigInt} {value : Nat} (result : Digits r value) (sign : Bool) :
    Returns (rightTruncate { r with sign }) (signum sign * value) := by
  have := rightTruncate_digits sign result.positive result.size
  rwa [result.value] at this

/-- Truncated division, by the magnitudes. -/
theorem tdiv_eq (x y : BigInt) : x.toInt.tdiv y.toInt =
    signum (x.sign != y.sign) * (magnitude x.digits / magnitude y.digits : Nat) := by
  rw [toInt, toInt]
  rcases x.sign with _ | _ <;> rcases y.sign with _ | _ <;> simp [signum]

theorem tmod_eq (x y : BigInt) : x.toInt.tmod y.toInt =
    signum x.sign * (magnitude x.digits % magnitude y.digits : Nat) := by
  rw [toInt, toInt]
  rcases x.sign with _ | _ <;> rcases y.sign with _ | _ <;>
    simp [signum, Int.tmod_eq_emod_of_nonneg]

theorem unaryMinus_spec (cx : x.Canonical) : Returns (unaryMinus x) (-x.toInt) := by
  unfold unaryMinus
  by_cases zero : x.isZero = true
  · have eq := isZero_iff.mp zero
    rw [if_pos zero]
    refine ⟨x, rfl, cx, ?_⟩
    rw [(cx.toInt_eq_zero_iff).mpr eq, neg_zero]
  · have nonzero : x.digits ≠ [0] := fun eq => zero (isZero_iff.mpr eq)
    rw [if_neg zero, copy_of_le (Nat.le_refl _) cx.size, ok_bind]
    have same : x.digits.take x.length = x.digits := List.take_length
    rw [same]
    refine ⟨_, rfl, cx.set_sign fun eq => absurd eq nonzero, ?_⟩
    rw [toInt_eq, toInt_eq, signum_not]
    ring

theorem Canonical.eq_one_iff (cy : y.Canonical) :
    (y.isUint32 = true ∧ y.digits[0]? = some 1) ↔ magnitude y.digits = 1 := by
  constructor
  · rintro ⟨single, one⟩
    have len : y.length = 1 := by simpa [isUint32] using single
    obtain ⟨d, eq⟩ := List.length_eq_one_iff.mp len
    rw [eq] at one ⊢
    cases one
    rfl
  · intro one
    have same : y.digits = [1] := by
      have nonzero : y.digits ≠ [0] := fun eq => by
        rw [eq] at one
        cases one
      have absolute : (⟨false, y.digits⟩ : BigInt).Canonical :=
        cy.set_sign fun eq => absurd eq nonzero
      have := absolute.ext (show Canonical ⟨false, [1]⟩ from canonical_single (by decide)) (by
        rw [toInt_of_not_sign rfl, toInt_of_not_sign rfl]
        simpa using one)
      exact congrArg BigInt.digits this
    exact ⟨by simp [isUint32, length, same], by rw [same]; rfl⟩

theorem divide_spec (cx : x.Canonical) (cy : y.Canonical) (nonzero : y.digits ≠ [0])
    (fits : DivisionFits x y) : Returns (divide x y) (x.toInt.tdiv y.toInt) := by
  have yPositive := cy.magnitude_pos nonzero
  rw [tdiv_eq, divide, if_neg (by rwa [isZero_iff]), absolutelyCompare_spec cx cy, ok_bind]
  rcases Nat.lt_trichotomy (magnitude x.digits) (magnitude y.digits) with less | same | greater
  · rw [orderOf_of_lt (by omega), if_pos rfl, Nat.div_eq_of_lt less]
    exact ⟨_, int32ToBigInt_zero, canonical_zero, by simp [toInt]⟩
  · rw [same, orderOf_self, if_neg (by decide), if_pos rfl, Nat.div_self yPositive,
      int32ToBigInt_one, ok_bind]
    refine ⟨_, rfl, canonical_single (by decide), ?_⟩
    rw [toInt_eq]
    rfl
  · rw [orderOf_of_gt (by omega), if_neg (by decide), if_neg (by decide)]
    by_cases one : y.isUint32 = true ∧ y.digits[0]? = some 1
    · rw [if_pos one, cy.eq_one_iff.mp one, Nat.div_one]
      split
      · next keep =>
        refine ⟨x, rfl, cx, ?_⟩
        rw [keep, toInt_eq]
      · next flip =>
        obtain ⟨r, ran, canonical, value⟩ := unaryMinus_spec cx
        refine ⟨r, ran, canonical, ?_⟩
        have : (x.sign != y.sign) = !x.sign := Bool.eq_not_of_ne flip
        rw [value, this, signum_not, toInt_eq]
        ring
    · rw [if_neg one]
      obtain ⟨r, ran, result⟩ := divideDigits_spec cx cy nonzero greater fits false
      rw [ran, ok_bind]
      exact result.truncate _

theorem remainder_spec (cx : x.Canonical) (cy : y.Canonical) (nonzero : y.digits ≠ [0])
    (fits : DivisionFits x y) : Returns (remainder x y) (x.toInt.tmod y.toInt) := by
  have yPositive := cy.magnitude_pos nonzero
  rw [remainder, if_neg (by rwa [isZero_iff]), absolutelyCompare_spec cx cy, ok_bind]
  rcases Nat.lt_trichotomy (magnitude x.digits) (magnitude y.digits) with less | same | greater
  · rw [orderOf_of_lt (by omega), if_pos (.inr rfl), tmod_eq, Nat.mod_eq_of_lt less]
    exact ⟨x, rfl, cx, toInt_eq x⟩
  · have xNonzero : ¬x.isZero = true := by
      rw [isZero_iff, ← cx.magnitude_eq_zero_iff]
      omega
    rw [same, orderOf_self, if_neg (by simp [xNonzero]), if_pos (.inl rfl), tmod_eq, same,
      Nat.mod_self]
    exact ⟨_, int32ToBigInt_zero, canonical_zero, by simp [toInt]⟩
  · have xNonzero : ¬x.isZero = true := by
      rw [isZero_iff, ← cx.magnitude_eq_zero_iff]
      omega
    rw [orderOf_of_gt (by omega), if_neg (by simp [xNonzero])]
    by_cases one : y.isUint32 = true ∧ y.digits[0]? = some 1
    · rw [if_pos (.inr one), tmod_eq, cy.eq_one_iff.mp one, Nat.mod_one]
      exact ⟨_, int32ToBigInt_zero, canonical_zero, by simp [toInt]⟩
    · rw [if_neg (by simpa using one), tmod_eq]
      obtain ⟨r, ran, result⟩ := divideDigits_spec cx cy nonzero greater fits true
      rw [ran, ok_bind]
      exact result.truncate _

/-- A dividend of `MAXSIZE` digits is not divided by a smaller divisor of several digits. -/
theorem division_throws (cx : x.Canonical) (cy : y.Canonical) (full : ¬DivisionFits x y) :
    divide x y = .error sizeExceeded ∧ remainder x y = .error sizeExceeded := by
  simp only [DivisionFits, not_or, not_lt, not_le] at full
  obtain ⟨long, several, greater⟩ := full
  have yPositive := cy.positive
  have size := cx.size
  have longer := cy.length_le_of_magnitude_le cx.positive (Nat.le_of_lt greater)
  have nonzero : y.digits ≠ [0] := fun eq => several (by rw [length, eq]; rfl)
  have xNonzero : ¬x.isZero = true := by
    rw [isZero_iff, ← cx.magnitude_eq_zero_iff]
    omega
  have notOne : ¬(y.isUint32 = true ∧ y.digits[0]? = some 1) := fun one =>
    several (by simpa [isUint32] using one.1)
  have throws : ∀ want, divideDigits x y want = .error sizeExceeded := fun want => by
    rw [divideDigits, if_neg (by simpa [isUint32] using several)]
    exact bigintDivisor_throws cy (by omega) longer (by omega) want
  constructor
  · rw [divide, if_neg (by rwa [isZero_iff]), absolutelyCompare_spec cx cy, ok_bind,
      orderOf_of_gt (by omega), if_neg (by decide), if_neg (by decide), if_neg notOne, throws,
      error_bind]
  · rw [remainder, if_neg (by rwa [isZero_iff]), absolutelyCompare_spec cx cy, ok_bind,
      orderOf_of_gt (by omega), if_neg (by simp [xNonzero]), if_neg (by simpa using notOne), throws,
      error_bind]

/-- `Divide` truncates towards zero and `Remainder` is what it leaves. -/
theorem divide_remainder_exact (x y : BigInt) (cx : x.Canonical) (cy : y.Canonical)
    (nonzero : y.toInt ≠ 0) (size : x.length < maxSize) :
    Returns (divide x y) (x.toInt.tdiv y.toInt) ∧
      ∃ r, remainder x y = .ok r ∧ r.Canonical ∧
        x.toInt = y.toInt * x.toInt.tdiv y.toInt + r.toInt ∧ r.toInt.natAbs < y.toInt.natAbs ∧
        (r.toInt = 0 ∨ r.sign = x.sign) := by
  have digitsNe : y.digits ≠ [0] := fun eq => nonzero (cy.toInt_eq_zero_iff.mpr eq)
  refine ⟨divide_spec cx cy digitsNe (.inl size), ?_⟩
  obtain ⟨r, ran, canonical, value⟩ := remainder_spec cx cy digitsNe (.inl size)
  refine ⟨r, ran, canonical, ?_, ?_, ?_⟩
  · rw [value, Int.mul_tdiv_add_tmod]
  · rw [value, Int.natAbs_tmod]
    exact Nat.mod_lt _ (Int.natAbs_pos.mpr nonzero)
  · by_cases zero : r.toInt = 0
    · exact .inl zero
    · right
      rw [tmod_eq] at value
      obtain ⟨m, hm⟩ : ∃ m : Nat, m = magnitude x.digits % magnitude y.digits := ⟨_, rfl⟩
      rw [← hm] at value
      rw [Bool.eq_iff_iff, canonical.sign_iff, value]
      rw [value] at zero
      rcases sign : x.sign with _ | _
      · simp [signum]
      · rw [sign] at zero
        simp only [signum, if_true, iff_true] at zero ⊢
        omega

/-- A long division where the first estimate is one too large. -/
theorem divide_remainder_exact_adds_back :
    let x : BigInt := ⟨true, [0, 0, 0x80000000, 0x7FFFFFFF]⟩
    let y : BigInt := ⟨false, [1, 0, 0x80000000]⟩
    x.Canonical ∧ y.Canonical ∧ y.toInt ≠ 0 ∧ x.length < maxSize ∧
      Returns (divide x y) (x.toInt.tdiv y.toInt) ∧
      ∃ r, remainder x y = .ok r ∧ r.Canonical ∧
        x.toInt = y.toInt * x.toInt.tdiv y.toInt + r.toInt ∧ r.toInt.natAbs < y.toInt.natAbs ∧
        (r.toInt = 0 ∨ r.sign = x.sign) := by
  intro x y
  have cx : x.Canonical := by decide
  have cy : y.Canonical := by decide
  have nonzero : y.toInt ≠ 0 := fun zero => absurd (cy.toInt_eq_zero_iff.mp zero) (by decide)
  have size : x.length < maxSize := by decide
  exact ⟨cx, cy, nonzero, size, divide_remainder_exact x y cx cy nonzero size⟩

end BigInt

end ArkRuntime
