import ArkRuntime.BigInt.Model
import ArkRuntime.Misc.Positional

/-!
# Values and canonical form

The number a BigInt stands for, and the form that every operation of `js_bigint.cpp` is to return:
at least one digit and no more than `MAXSIZE`, a top digit that is not zero unless the number is the
single digit zero, and no negative zero. A number has one canonical BigInt (`Canonical.ext`), and
`RightTruncate` finds it (`rightTruncate_spec`).
-/

namespace ArkRuntime

namespace BigInt

/-- The digits of a BigInt. -/
def words : DigitSystem UInt32 where
  base := 2 ^ 32
  weight := UInt32.toNat
  one_lt_base := by decide
  weight_lt := UInt32.toNat_lt

/-- The number that the digits denote. -/
def magnitude (digits : List UInt32) : Nat := words.value digits

/-- The integer that a BigInt stands for. -/
def toInt (x : BigInt) : Int := if x.sign then -(magnitude x.digits : Int) else magnitude x.digits

structure Canonical (x : BigInt) : Prop where
  positive : 0 < x.length
  size : x.length ≤ maxSize
  top : x.digits ≠ [0] → x.digits[x.length - 1]? ≠ some 0
  zero : x.digits = [0] → x.sign = false

instance (x : BigInt) : Decidable x.Canonical :=
  decidable_of_iff (0 < x.length ∧ x.length ≤ maxSize ∧
      (x.digits ≠ [0] → x.digits[x.length - 1]? ≠ some 0) ∧ (x.digits = [0] → x.sign = false))
    ⟨fun h => ⟨h.1, h.2.1, h.2.2.1, h.2.2.2⟩, fun h => ⟨h.positive, h.size, h.top, h.zero⟩⟩

/-- The call returns the canonical BigInt of `v`. -/
def Returns (result : Except BigIntFault BigInt) (v : Int) : Prop :=
  ∃ r, result = .ok r ∧ r.Canonical ∧ r.toInt = v

/-- The call returns the canonical BigInt of `v`, or throws the given error. -/
def ReturnsOr (fault : BigIntFault) (result : Except BigIntFault BigInt) (v : Int) : Prop :=
  result = .error fault ∨ Returns result v

variable {x y r : BigInt} {digits xs ys : List UInt32} {digit : UInt32} {i n : Nat}

/-! ## Digits -/

@[simp] theorem words_base : words.base = 2 ^ 32 := rfl
@[simp] theorem words_weight (d : UInt32) : words.weight d = d.toNat := rfl

theorem words_weight_injective : Function.Injective words.weight := fun _ _ same =>
  UInt32.toNat_inj.mp same

theorem weight_pos_iff (d : UInt32) : 0 < words.weight d ↔ d ≠ 0 := by
  rw [words_weight, Nat.pos_iff_ne_zero, ne_eq, ne_eq, ← UInt32.toNat_inj]
  rfl

theorem getDigit_eq (read : digits[i]? = some digit) : getDigit digits i = .ok digit := by
  simp only [getDigit, read]

theorem exists_digit (inside : i < digits.length) : ∃ d, digits[i]? = some d :=
  ⟨digits[i], List.getElem?_eq_getElem inside⟩

theorem getDigit_of_lt (inside : i < digits.length) : getDigit digits i = .ok digits[i] := by
  simp only [getDigit, List.getElem?_eq_getElem inside]

theorem setDigit_of_lt (d : UInt32) (inside : i < digits.length) :
    setDigit digits i d = .ok (digits.set i d) := if_pos inside

theorem createBigint_of_le (small : n ≤ maxSize) :
    createBigint n = .ok ⟨false, List.replicate n 0⟩ := by
  rw [createBigint, if_neg (by omega)]

theorem createBigint_ok (created : createBigint n = .ok x) :
    n ≤ maxSize ∧ x = ⟨false, List.replicate n 0⟩ := by
  unfold createBigint at created
  split at created
  · cases created
  · cases created
    exact ⟨by omega, rfl⟩

theorem createBigint_cases (n : Nat) :
    (maxSize < n ∧ createBigint n = .error sizeExceeded) ∨
      (n ≤ maxSize ∧ createBigint n = .ok ⟨false, List.replicate n 0⟩) := by
  rcases Nat.lt_or_ge maxSize n with large | small
  · exact .inl ⟨large, if_pos large⟩
  · exact .inr ⟨small, createBigint_of_le small⟩

theorem setDigit_ok (stored : setDigit digits i digit = .ok xs) : xs = digits.set i digit := by
  unfold setDigit at stored
  split at stored
  · cases stored
    rfl
  · cases stored

theorem maxSize_eq : maxSize = 32768 := rfl

/-! ## Values -/

@[simp] theorem magnitude_nil : magnitude [] = 0 := rfl

theorem magnitude_cons (d : UInt32) (ds : List UInt32) :
    magnitude (d :: ds) = d.toNat + 2 ^ 32 * magnitude ds := rfl

@[simp] theorem magnitude_singleton (d : UInt32) : magnitude [d] = d.toNat := by
  simp [magnitude]

theorem magnitude_replicate (n : Nat) : magnitude (List.replicate n 0) = 0 :=
  words.value_replicate rfl n

theorem magnitude_lt (ds : List UInt32) : magnitude ds < (2 ^ 32) ^ ds.length :=
  words.value_lt ds

theorem isZero_iff : x.isZero = true ↔ x.digits = [0] := by
  unfold isZero length
  rw [Bool.and_eq_true, beq_iff_eq, beq_iff_eq]
  constructor
  · rintro ⟨single, zero⟩
    obtain ⟨d, eq⟩ := List.length_eq_one_iff.mp single
    rw [eq] at zero ⊢
    simpa using zero
  · intro eq
    simp [eq]

theorem isZero_eq_false_iff : x.isZero = false ↔ x.digits ≠ [0] := by
  rw [ne_eq, ← isZero_iff, Bool.not_eq_true]

theorem toInt_natAbs (x : BigInt) : x.toInt.natAbs = magnitude x.digits := by
  unfold toInt
  split <;> simp

theorem toInt_of_sign (negative : x.sign = true) : x.toInt = -(magnitude x.digits : Int) :=
  if_pos negative

theorem toInt_of_not_sign (positive : x.sign = false) : x.toInt = magnitude x.digits := by
  rw [toInt, positive]
  rfl

/-! ## The canonical BigInt of a number -/

namespace Canonical

/-- The top digit. -/
theorem exists_top (canonical : x.Canonical) (nonzero : x.digits ≠ [0]) :
    ∃ d, x.digits[x.length - 1]? = some d ∧ 0 < words.weight d := by
  have inside : x.length - 1 < x.digits.length := by
    have := canonical.positive
    unfold length at this ⊢
    omega
  refine ⟨x.digits[x.length - 1], List.getElem?_eq_getElem inside, ?_⟩
  rw [weight_pos_iff]
  intro isZero
  apply canonical.top nonzero
  rw [List.getElem?_eq_getElem inside, isZero]

theorem magnitude_eq_zero_iff (canonical : x.Canonical) :
    magnitude x.digits = 0 ↔ x.digits = [0] := by
  constructor
  · intro zero
    by_contra nonzero
    obtain ⟨d, top, positive⟩ := canonical.exists_top nonzero
    have := words.pow_le_value top positive
    have := words.base_pow_pos (x.length - 1)
    rw [magnitude] at zero
    omega
  · intro eq
    rw [eq]
    rfl

theorem magnitude_pos (canonical : x.Canonical) (nonzero : x.digits ≠ [0]) :
    0 < magnitude x.digits :=
  Nat.pos_of_ne_zero fun zero => nonzero (canonical.magnitude_eq_zero_iff.mp zero)

theorem pow_le_magnitude (canonical : x.Canonical) (nonzero : x.digits ≠ [0]) :
    (2 ^ 32) ^ (x.length - 1) ≤ magnitude x.digits := by
  obtain ⟨d, top, positive⟩ := canonical.exists_top nonzero
  exact words.pow_le_value top positive

theorem toInt_eq_zero_iff (canonical : x.Canonical) : x.toInt = 0 ↔ x.digits = [0] := by
  rw [← canonical.magnitude_eq_zero_iff, ← toInt_natAbs, Int.natAbs_eq_zero]

theorem sign_iff (canonical : x.Canonical) : x.sign = true ↔ x.toInt < 0 := by
  constructor
  · intro negative
    have nonzero : x.digits ≠ [0] := fun eq => by
      rw [canonical.zero eq] at negative
      cases negative
    have := canonical.magnitude_pos nonzero
    rw [toInt_of_sign negative]
    omega
  · intro below
    by_contra positive
    rw [toInt_of_not_sign (Bool.not_eq_true _ ▸ positive)] at below
    omega

theorem set_sign (canonical : x.Canonical) {sign : Bool} (allowed : x.digits = [0] → sign = false) :
    ({ x with sign } : BigInt).Canonical :=
  ⟨canonical.positive, canonical.size, canonical.top, allowed⟩

theorem length_le_of_magnitude_le (canonical : x.Canonical) (nonempty : 0 < y.length)
    (le : magnitude x.digits ≤ magnitude y.digits) : x.length ≤ y.length := by
  by_contra longer
  by_cases zero : x.digits = [0]
  · have : x.length = 1 := by rw [length, zero]; rfl
    omega
  · obtain ⟨d, top, positive⟩ := canonical.exists_top zero
    have : y.digits.length < x.digits.length := by
      unfold length at longer
      omega
    have := words.value_lt_of_length_lt this top positive
    unfold magnitude at le
    omega

/-- A number has one canonical BigInt. -/
theorem ext (cx : x.Canonical) (cy : y.Canonical) (same : x.toInt = y.toInt) : x = y := by
  have sameMagnitude : magnitude x.digits = magnitude y.digits := by
    rw [← toInt_natAbs, ← toInt_natAbs, same]
  have sameLength : x.digits.length = y.digits.length :=
    Nat.le_antisymm (cx.length_le_of_magnitude_le cy.positive (Nat.le_of_eq sameMagnitude))
      (cy.length_le_of_magnitude_le cx.positive (Nat.le_of_eq sameMagnitude.symm))
  have sameDigits := words.eq_of_value_eq words_weight_injective sameLength sameMagnitude
  have sameSign : x.sign = y.sign := by
    rw [Bool.eq_iff_iff, cx.sign_iff, cy.sign_iff, same]
  cases x
  cases y
  simp_all

end Canonical

/-! ## Small numbers -/

/-- A digit that is not zero on top makes the form canonical. -/
theorem canonical_of_top (size : x.length ≤ maxSize) (top : x.digits[x.length - 1]? = some digit)
    (nonzero : digit ≠ 0) : x.Canonical where
  positive := by
    have inside := (List.getElem?_eq_some_iff.mp top).1
    unfold length at inside ⊢
    omega
  size := size
  top := fun _ zero => nonzero (by
    rw [top] at zero
    exact Option.some.inj zero)
  zero := fun eq => by
    have single : x.length = 1 := by rw [length, eq]; rfl
    rw [eq, single] at top
    exact absurd (Option.some.inj top).symm nonzero

theorem canonical_single {sign : Bool} (nonzero : digit ≠ 0) : Canonical ⟨sign, [digit]⟩ :=
  canonical_of_top (Nat.le_of_ble_eq_true rfl) rfl nonzero

theorem canonical_zero : Canonical ⟨false, [0]⟩ := by decide

theorem int32ToBigInt_zero : int32ToBigInt 0 = .ok ⟨false, [0]⟩ := by decide

theorem int32ToBigInt_one : int32ToBigInt 1 = .ok ⟨false, [1]⟩ := by decide

theorem int32ToBigInt_neg_one : int32ToBigInt (-1) = .ok ⟨true, [1]⟩ := by decide

/-! ## `RightTruncate` -/

theorem highestNonzero_spec (digits : List UInt32) (n : Nat) (inside : n ≤ digits.length) :
    (highestNonzero digits n = .ok none ∧ magnitude (digits.take n) = 0) ∨
      ∃ index d, highestNonzero digits n = .ok (some index) ∧ index < n ∧
        digits[index]? = some d ∧ d ≠ 0 ∧
        magnitude (digits.take n) = magnitude (digits.take (index + 1)) := by
  induction n with
  | zero => exact .inl ⟨rfl, rfl⟩
  | succ n ih =>
    have inside' : n < digits.length := inside
    have read : digits[n]? = some digits[n] := List.getElem?_eq_getElem inside'
    by_cases nonzero : digits[n] = 0
    · have step : highestNonzero digits (n + 1) = highestNonzero digits n := by
        simp [highestNonzero, getDigit_of_lt inside', nonzero]
      have same : magnitude (digits.take (n + 1)) = magnitude (digits.take n) := by
        simp only [magnitude, words.value_take_succ read, nonzero]
        rfl
      rw [step, same]
      rcases ih (by omega) with none | ⟨index, d, found, below, rest⟩
      · exact .inl none
      · exact .inr ⟨index, d, found, by omega, rest⟩
    · refine .inr ⟨n, digits[n], ?_, Nat.lt_succ_self n, read, nonzero, rfl⟩
      simp [highestNonzero, getDigit_of_lt inside', nonzero]

theorem copy_of_le (inside : n ≤ x.length) (small : n ≤ maxSize) :
    copy x n = .ok ⟨x.sign, x.digits.take n⟩ := by
  simp [copy, createBigint_of_le small, inside]

/-- `RightTruncate` returns the canonical BigInt of the same number. -/
theorem rightTruncate_spec (positive : 0 < x.length) (size : x.length ≤ maxSize) :
    Returns (rightTruncate x) x.toInt := by
  unfold rightTruncate
  by_cases isZero : x.isZero = true
  · rw [if_pos isZero]
    have eq := isZero_iff.mp isZero
    refine ⟨_, rfl, ⟨positive, size, fun no => absurd eq no, fun _ => rfl⟩, ?_⟩
    simp [toInt, eq]
  rw [if_neg isZero, if_neg (by omega)]
  have inside : x.length - 1 < x.digits.length := by
    unfold length at positive ⊢
    omega
  have topRead : x.digits[x.length - 1]? = some x.digits[x.length - 1] :=
    List.getElem?_eq_getElem inside
  rw [getDigit_of_lt inside, ok_bind]
  by_cases topZero : x.digits[x.length - 1] = 0
  · rw [if_neg (by simpa using topZero)]
    have whole : x.digits.take x.length = x.digits := List.take_length
    rcases highestNonzero_spec x.digits x.length (Nat.le_refl _) with
      ⟨found, zero⟩ | ⟨index, d, found, below, read, nonzero, same⟩
    · rw [found, ok_bind]
      refine ⟨_, int32ToBigInt_zero, canonical_zero, ?_⟩
      rw [whole] at zero
      simp [toInt, zero]
    · rw [found, ok_bind]
      have len : (x.digits.take (index + 1)).length = index + 1 := by
        rw [List.length_take, Nat.min_eq_left (show index + 1 ≤ x.digits.length from below)]
      have top : (x.digits.take (index + 1))[index]? = some d := by
        rw [List.getElem?_take_of_lt (Nat.lt_succ_self index), read]
      refine ⟨_, copy_of_le below (by omega), ?_, ?_⟩
      · refine canonical_of_top ?_ ?_ nonzero
        · show (x.digits.take (index + 1)).length ≤ maxSize
          omega
        · show (x.digits.take (index + 1))[(x.digits.take (index + 1)).length - 1]? = some d
          rw [len]
          exact top
      · rw [whole] at same
        simp only [toInt, same]
  · rw [if_pos (by simpa using topZero)]
    exact ⟨x, rfl, canonical_of_top size topRead topZero, rfl⟩

theorem rightTruncate_canonical (size : x.length ≤ maxSize) (ran : rightTruncate x = .ok r) :
    r.Canonical := by
  rcases Nat.eq_zero_or_pos x.length with empty | positive
  · have notZero : x.isZero = false := by simp [isZero, empty]
    simp [rightTruncate, notZero, empty] at ran
  · obtain ⟨s, ran', canonical, -⟩ := rightTruncate_spec positive size
    rw [ran] at ran'
    cases ran'
    exact canonical

end BigInt

end ArkRuntime
