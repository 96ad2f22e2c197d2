import ArkRuntime.BigInt.Arithmetic

/-!
# `Mul` and `Multiply`
-/

namespace ArkRuntime

namespace BigInt

variable {x y : BigInt} {xs ys digits : List UInt32} {i j : Nat}

/-! ## Half digits -/

theorem toNat_and_halfDateMask (x : UInt32) : (x &&& halfDateMask).toNat = x.toNat % 2 ^ 16 := by
  rw [UInt32.toNat_and, show halfDateMask.toNat = 2 ^ 16 - 1 from rfl, Nat.and_two_pow_sub_one_eq_mod]

theorem toNat_shiftRight_half (x : UInt32) : (x >>> halfDateBits).toNat = x.toNat / 2 ^ 16 := by
  rw [UInt32.toNat_shiftRight, show halfDateBits.toNat % 32 = 16 from rfl, Nat.shiftRight_eq_div_pow]

theorem toNat_shiftLeft_half (x : UInt32) :
    (x <<< halfDateBits).toNat = x.toNat % 2 ^ 16 * 2 ^ 16 := by
  rw [UInt32.toNat_shiftLeft, show halfDateBits.toNat % 32 = 16 from rfl, Nat.shiftLeft_eq]
  omega

theorem toNat_mul_of_lt {a b : UInt32} (halfA : a.toNat < 2 ^ 16) (halfB : b.toNat < 2 ^ 16) :
    (a * b).toNat = a.toNat * b.toNat := by
  rw [UInt32.toNat_mul, Nat.mod_eq_of_lt]
  calc a.toNat * b.toNat < 2 ^ 16 * 2 ^ 16 := Nat.mul_lt_mul'' halfA halfB
    _ = 2 ^ 32 := by norm_num

/-- The four half products add up to the product. -/
theorem halves_mul (a b : Nat) :
    a * b = 2 ^ 32 * (a / 2 ^ 16 * (b / 2 ^ 16)) +
      2 ^ 16 * (a % 2 ^ 16 * (b / 2 ^ 16) + a / 2 ^ 16 * (b % 2 ^ 16)) +
      a % 2 ^ 16 * (b % 2 ^ 16) := by
  have splitA := Nat.div_add_mod a (2 ^ 16)
  have splitB := Nat.div_add_mod b (2 ^ 16)
  calc a * b = (2 ^ 16 * (a / 2 ^ 16) + a % 2 ^ 16) * (2 ^ 16 * (b / 2 ^ 16) + b % 2 ^ 16) := by
        rw [splitA, splitB]
    _ = _ := by ring

/-- The half products of `Mul`, put together: no carry is lost. -/
theorem halfProducts_spec (lowRes highRes midRes1 midRes2 : UInt32) (product : Nat)
    (parts : product = 2 ^ 32 * highRes.toNat + 2 ^ 16 * (midRes1.toNat + midRes2.toNat) +
      lowRes.toNat)
    (below : product < 2 ^ 32 * 2 ^ 32) :
    let first := addHelper lowRes (midRes1 <<< halfDateBits) 0
    let second := addHelper first.1 (midRes2 <<< halfDateBits) first.2
    2 ^ 32 * ((midRes1 >>> halfDateBits) + (midRes2 >>> halfDateBits) + highRes + second.2).toNat +
      second.1.toNat = product := by
  intro first second
  have sum := addHelper_spec lowRes (midRes1 <<< halfDateBits) 0 (by decide)
  change first.1.toNat + 2 ^ 32 * first.2.toNat = _ at sum
  rw [toNat_shiftLeft_half, UInt32.toNat_zero] at sum
  have boundLow := lowRes.toNat_lt
  have sum' := addHelper_spec first.1 (midRes2 <<< halfDateBits) first.2 (by omega)
  change second.1.toNat + 2 ^ 32 * second.2.toNat = _ at sum'
  rw [toNat_shiftLeft_half] at sum'
  simp only [UInt32.toNat_add, toNat_shiftRight_half]
  omega

/-- `Mul` is the product. -/
theorem mul_spec (x y : UInt32) :
    2 ^ 32 * (mul x y).1.toNat + (mul x y).2.toNat = x.toNat * y.toNat := by
  have boundX := x.toNat_lt
  have boundY := y.toNat_lt
  have lowX : (x &&& halfDateMask).toNat < 2 ^ 16 := by
    rw [toNat_and_halfDateMask]
    omega
  have lowY : (y &&& halfDateMask).toNat < 2 ^ 16 := by
    rw [toNat_and_halfDateMask]
    omega
  have highX : (x >>> halfDateBits).toNat < 2 ^ 16 := by
    rw [toNat_shiftRight_half]
    omega
  have highY : (y >>> halfDateBits).toNat < 2 ^ 16 := by
    rw [toNat_shiftRight_half]
    omega
  apply halfProducts_spec
  · rw [toNat_mul_of_lt highX highY, toNat_mul_of_lt lowX highY, toNat_mul_of_lt highX lowY,
      toNat_mul_of_lt lowX lowY]
    simp only [toNat_and_halfDateMask, toNat_shiftRight_half]
    exact halves_mul x.toNat y.toNat
  · exact Nat.mul_lt_mul'' boundX boundY

/-! ## The loops of `Multiply` -/

/-- The row `s` and what it still has to carry amount to `total`. -/
structure RowCarries (n index total : Nat) (s : Row) : Prop where
  length : s.digits.length = n
  position : s.index = index
  carry : s.carry.toNat ≤ 2
  value : magnitude s.digits + (2 ^ 32) ^ index * (s.high.toNat + s.carry.toNat) = total

theorem addHelper_pair (a b c : UInt32) (small : c.toNat ≤ 2) :
    (addHelper (addHelper a b 0).1 c (addHelper a b 0).2).1.toNat +
        2 ^ 32 * (addHelper (addHelper a b 0).1 c (addHelper a b 0).2).2.toNat =
      a.toNat + b.toNat + c.toNat ∧
    (addHelper (addHelper a b 0).1 c (addHelper a b 0).2).2.toNat ≤ 2 := by
  have first := addHelper_spec a b 0 (by decide)
  simp only [UInt32.toNat_zero] at first
  have boundA := a.toNat_lt
  have boundB := b.toNat_lt
  have second := addHelper_spec (addHelper a b 0).1 c (addHelper a b 0).2 (by omega)
  omega

variable {s : Row} {n total index : Nat}

theorem mulRound_spec {xVal : UInt32} (insideY : j < ys.length) (room : i + j < n)
    (before : RowCarries n (i + j) (total + (2 ^ 32) ^ i * (xVal.toNat * magnitude (ys.take j))) s) :
    ∃ s', mulRound xVal ys j s = .ok s' ∧
      RowCarries n (i + (j + 1))
        (total + (2 ^ 32) ^ i * (xVal.toNat * magnitude (ys.take (j + 1)))) s' := by
  rcases s with ⟨digits, carry, high, index⟩
  obtain ⟨len, rfl, small, value⟩ := before
  simp only at len small value
  have inside : i + j < digits.length := by omega
  obtain ⟨d, read⟩ := exists_digit inside
  obtain ⟨e, readY⟩ := exists_digit insideY
  obtain ⟨sum, sumCarry⟩ := addHelper_pair d high carry small
  set withCarry := addHelper (addHelper d high 0).1 carry (addHelper d high 0).2
  have product := mul_spec xVal e
  have last := addHelper_spec withCarry.1 (mul xVal e).2 withCarry.2 (by omega)
  set withLow := addHelper withCarry.1 (mul xVal e).2 withCarry.2
  have replaced := magnitude_set withLow.1 read
  refine ⟨⟨digits.set (i + j) withLow.1, withLow.2, (mul xVal e).1, i + j + 1⟩, ?_, ?_⟩
  · simp only [mulRound, getDigit_eq read, getDigit_eq readY, ok_bind, setDigit_of_lt _ inside,
      pure_eq_ok]
    rfl
  · refine ⟨by simpa using len, rfl, ?_, ?_⟩
    · have boundDigit := d.toNat_lt
      have boundHigh := high.toNat_lt
      have boundLow := (mul xVal e).2.toNat_lt
      -- three digits and a carry of at most 2
      simp only
      omega
    · rw [magnitude_take_succ readY]
      zify at value replaced sum product last ⊢
      linear_combination replaced + value + (2 ^ 32) ^ (i + j) * (sum + last) +
        (2 ^ 32) ^ (i + j) * product

theorem mulCarryRound_spec (room : index < n) (before : RowCarries n index total s) :
    ∃ s', mulCarryRound s = .ok s' ∧ RowCarries n (index + 1) total s' := by
  rcases s with ⟨digits, carry, high, position⟩
  obtain ⟨len, rfl, small, value⟩ := before
  simp only at len small value room ⊢
  have inside : position < digits.length := by omega
  obtain ⟨d, read⟩ := exists_digit inside
  obtain ⟨sum, sumCarry⟩ := addHelper_pair d high carry small
  set withCarry := addHelper (addHelper d high 0).1 carry (addHelper d high 0).2
  have replaced := magnitude_set withCarry.1 read
  refine ⟨⟨digits.set position withCarry.1, withCarry.2, 0, position + 1⟩, ?_, ?_⟩
  · simp only [mulCarryRound, getDigit_eq read, ok_bind, setDigit_of_lt _ inside, pure_eq_ok]
    rfl
  · refine ⟨by simpa using len, rfl, sumCarry, ?_⟩
    simp only [UInt32.toNat_zero, Nat.zero_add]
    zify at value replaced sum ⊢
    linear_combination replaced + value + (2 ^ 32) ^ position * sum

theorem leftOver_eq_false {row : Row} : leftOver row = false ↔ row.carry = 0 ∧ row.high = 0 := by
  rw [leftOver, Bool.or_eq_false_iff, bne_eq_false_iff_eq, bne_eq_false_iff_eq]

/-- Something is left over, so its place is below the bound on the total. -/
theorem RowCarries.lt_of_leftOver (inv : RowCarries n index total s) (fits : total < (2 ^ 32) ^ n)
    (again : leftOver s = true) : index < n := by
  by_contra outside
  have nonzero : 0 < s.high.toNat + s.carry.toNat := by
    by_contra nothing
    have : leftOver s = false := leftOver_eq_false.mpr
      ⟨UInt32.toNat_inj.mp (show s.carry.toNat = 0 by omega),
        UInt32.toNat_inj.mp (show s.high.toNat = 0 by omega)⟩
    rw [again] at this
    cases this
  have large : (2 ^ 32) ^ n ≤ (2 ^ 32) ^ index :=
    Nat.pow_le_pow_right (by norm_num) (Nat.le_of_not_lt outside)
  have value := inv.value
  have : (2 ^ 32) ^ index * 1 ≤ (2 ^ 32) ^ index * (s.high.toNat + s.carry.toNat) :=
    Nat.mul_le_mul_left _ nonzero
  omega

/-- The carry loop stays inside the digits. -/
theorem carryLoop_spec (fits : total < (2 ^ 32) ^ n) (before : RowCarries n index total s) :
    ∃ s', whileLoop .unfinished leftOver mulCarryRound (n + 1) s = .ok s' ∧
      s'.digits.length = n ∧ magnitude s'.digits = total := by
  have round : ∀ m s, (∃ index, RowCarries n index total s ∧ m = n - index) →
      leftOver s = true → ∃ s' m', mulCarryRound s = .ok s' ∧ m' < m ∧
        ∃ index, RowCarries n index total s' ∧ m' = n - index := by
    rintro m s ⟨index, inv, rfl⟩ again
    have inside := inv.lt_of_leftOver fits again
    obtain ⟨s', ran, after⟩ := mulCarryRound_spec inside inv
    exact ⟨s', n - (index + 1), ran, by omega, index + 1, after, rfl⟩
  obtain ⟨s', m, ran, leave, index', after, -⟩ :=
    whileLoop_spec round (n + 1) (n - index) s ⟨index, before, rfl⟩ (by omega)
  refine ⟨s', ran, after.length, ?_⟩
  have value := after.value
  obtain ⟨zeroCarry, zeroHigh⟩ := leftOver_eq_false.mp leave
  rw [zeroCarry, zeroHigh] at value
  simpa using value

/-- A round of the outer loop adds a partial product. -/
theorem multiplyRow_spec (inside : i < xs.length) (len : digits.length = xs.length + ys.length)
    (value : magnitude digits = magnitude (xs.take i) * magnitude ys) :
    ∃ digits', multiplyRow xs ys i digits = .ok digits' ∧
      digits'.length = xs.length + ys.length ∧
      magnitude digits' = magnitude (xs.take (i + 1)) * magnitude ys := by
  obtain ⟨xVal, readX⟩ := exists_digit inside
  have total : magnitude (xs.take (i + 1)) * magnitude ys =
      magnitude digits + (2 ^ 32) ^ i * (xVal.toNat * magnitude ys) := by
    rw [magnitude_take_succ readX, value]
    ring
  unfold multiplyRow
  rw [getDigit_eq readX, ok_bind]
  by_cases skip : xVal = 0
  · refine ⟨digits, if_pos skip, len, ?_⟩
    rw [total, skip]
    simp
  · rw [if_neg skip]
    have start : RowCarries digits.length (i + 0)
        (magnitude digits + (2 ^ 32) ^ i * (xVal.toNat * magnitude (ys.take 0)))
        ⟨digits, 0, 0, i⟩ := ⟨rfl, rfl, Nat.zero_le 2, by simp⟩
    obtain ⟨row, ran, inv⟩ := forRange_spec
      (I := fun j s => RowCarries digits.length (i + j)
        (magnitude digits + (2 ^ 32) ^ i * (xVal.toNat * magnitude (ys.take j))) s)
      0 ys.length start fun j s _ below inv => mulRound_spec (by omega) (by omega) inv
    rw [Nat.zero_add, magnitude_take_length ys, ← total] at inv
    have fits : magnitude (xs.take (i + 1)) * magnitude ys < (2 ^ 32) ^ digits.length := by
      calc magnitude (xs.take (i + 1)) * magnitude ys
          < (2 ^ 32) ^ (i + 1) * (2 ^ 32) ^ ys.length :=
            Nat.mul_lt_mul'' (magnitude_take_lt xs (i + 1)) (magnitude_lt ys)
        _ = (2 ^ 32) ^ (i + 1 + ys.length) := (Nat.pow_add _ _ _).symm
        _ ≤ (2 ^ 32) ^ digits.length := Nat.pow_le_pow_right (by norm_num) (by omega)
    obtain ⟨row', ran', len', value'⟩ := carryLoop_spec fits inv
    refine ⟨row'.digits, ?_, by omega, value'⟩
    rw [ran, ok_bind, ran', ok_bind]
    rfl

/-! ## `Multiply` -/

theorem multiply_of_isZero (cx : x.Canonical) (cy : y.Canonical)
    (zero : x.isZero = true ∨ y.isZero = true) : Returns (multiply x y) (x.toInt * y.toInt) := by
  unfold multiply
  by_cases zeroX : x.isZero = true
  · have value := cx.toInt_eq_zero_iff.mpr (isZero_iff.mp zeroX)
    exact ⟨x, if_pos zeroX, cx, by rw [value, Int.zero_mul]⟩
  · have zeroY := zero.resolve_left zeroX
    have value := cy.toInt_eq_zero_iff.mpr (isZero_iff.mp zeroY)
    exact ⟨y, by rw [if_neg zeroX, if_pos zeroY], cy, by rw [value, Int.mul_zero]⟩

/-- `Multiply` asks for as many digits as its operands have together. -/
theorem multiply_cases (cx : x.Canonical) (cy : y.Canonical) (nonzeroX : x.isZero = false)
    (nonzeroY : y.isZero = false) :
    (maxSize < x.length + y.length ∧ multiply x y = .error sizeExceeded) ∨
      (x.length + y.length ≤ maxSize ∧ Returns (multiply x y) (x.toInt * y.toInt)) := by
  unfold multiply
  rw [nonzeroX, nonzeroY, if_neg Bool.false_ne_true, if_neg Bool.false_ne_true]
  rcases createBigint_cases (x.length + y.length) with ⟨large, failed⟩ | ⟨small, created⟩
  · exact .inl ⟨large, by rw [failed]; rfl⟩
  refine .inr ⟨small, ?_⟩
  have start : (List.replicate (x.length + y.length) (0 : UInt32)).length =
        x.digits.length + y.digits.length ∧
      magnitude (List.replicate (x.length + y.length) 0) =
        magnitude (x.digits.take 0) * magnitude y.digits := by
    rw [List.length_replicate, magnitude_replicate]
    exact ⟨rfl, by simp⟩
  obtain ⟨digits, ran, len, value⟩ := forRange_spec
    (I := fun i (digits : List UInt32) => digits.length = x.digits.length + y.digits.length ∧
      magnitude digits = magnitude (x.digits.take i) * magnitude y.digits)
    0 x.digits.length start fun i digits _ below inv => multiplyRow_spec (by omega) inv.1 inv.2
  rw [Nat.zero_add, magnitude_take_length] at value
  have signs : signum (x.sign != y.sign) = signum x.sign * signum y.sign := by
    cases x.sign <;> cases y.sign <;> rfl
  have result : x.toInt * y.toInt = signum (x.sign != y.sign) * magnitude digits := by
    rw [toInt_eq, toInt_eq, signs, value]
    push_cast
    ring
  have len' : digits.length = x.length + y.length := len
  have ran' : forRange (multiplyRow x.digits y.digits) 0 x.length
      (List.replicate (x.length + y.length) 0) = .ok digits := ran
  have := cx.positive
  rw [created, ok_bind, ran', ok_bind, result]
  exact rightTruncate_digits _ (by omega) (by omega)

theorem multiply_spec (cx : x.Canonical) (cy : y.Canonical) :
    ReturnsOr sizeExceeded (multiply x y) (x.toInt * y.toInt) := by
  by_cases zero : x.isZero = true ∨ y.isZero = true
  · exact .inr (multiply_of_isZero cx cy zero)
  · obtain ⟨nonzeroX, nonzeroY⟩ := not_or.mp zero
    rcases multiply_cases cx cy (Bool.eq_false_iff.mpr nonzeroX) (Bool.eq_false_iff.mpr nonzeroY) with
      ⟨-, failed⟩ | ⟨-, returns⟩
    · exact .inl failed
    · exact .inr returns

/-- `Add`, `Subtract` and `Multiply` are exact: unless they throw the RangeError of `CreateBigint`
    they return the canonical BigInt of the sum, the difference and the product. Their digit helpers
    lose no carry and no borrow, and since a result is never `invalidAccess`, no loop leaves its
    digits. -/
theorem add_subtract_multiply_exact (x y : BigInt) (cx : x.Canonical) (cy : y.Canonical) :
    ReturnsOr sizeExceeded (add x y) (x.toInt + y.toInt) ∧
    ReturnsOr sizeExceeded (subtract x y) (x.toInt - y.toInt) ∧
    ReturnsOr sizeExceeded (multiply x y) (x.toInt * y.toInt) ∧
    (∀ a b c : UInt32, c.toNat + 1 < 2 ^ 32 →
      (addHelper a b c).1.toNat + 2 ^ 32 * (addHelper a b c).2.toNat =
          a.toNat + b.toNat + 2 ^ 32 * c.toNat ∧
        (subHelper a b c).1.toNat + b.toNat + 2 ^ 32 * c.toNat =
          a.toNat + 2 ^ 32 * (subHelper a b c).2.toNat) ∧
    ∀ a b : UInt32, 2 ^ 32 * (mul a b).1.toNat + (mul a b).2.toNat = a.toNat * b.toNat :=
  ⟨add_spec cx cy, subtract_spec cx cy, multiply_spec cx cy,
    fun a b c small => ⟨addHelper_spec a b c small, subHelper_spec a b c small⟩, mul_spec⟩

theorem add_subtract_multiply_exact_carries :
    let x : BigInt := ⟨false, [0xFFFFFFFF, 0xFFFFFFFF]⟩
    let y : BigInt := ⟨true, [0xFFFFFFFF]⟩
    x.Canonical ∧ y.Canonical ∧ ReturnsOr sizeExceeded (add x y) (x.toInt + y.toInt) ∧
      ReturnsOr sizeExceeded (subtract x y) (x.toInt - y.toInt) ∧
      ReturnsOr sizeExceeded (multiply x y) (x.toInt * y.toInt) := by
  intro x y
  have cx : x.Canonical := by decide
  have cy : y.Canonical := by decide
  obtain ⟨sum, difference, product, -⟩ := add_subtract_multiply_exact x y cx cy
  exact ⟨cx, cy, sum, difference, product⟩

end BigInt

end ArkRuntime
