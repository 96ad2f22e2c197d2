import ArkRuntime.BigInt.Compare
import Mathlib.Tactic.LinearCombination

/-!
# `Add`, `Subtract` and `Multiply`

`AddHelper` and `SubHelper` keep the value of a digit sum or difference together with the carry
counter (`CarryHelper`). The loops of `BigintAdd` and `BigintSub` are the same for both, so they are
followed once, with a sign for the direction. The loops of `Multiply` keep the value of the result
digits and of the deferred high word and carry; since the product fits into the result, the carry
loop ends inside it.
-/

namespace ArkRuntime

namespace BigInt

variable {x y : BigInt} {xs ys digits fresh : List UInt32} {i n : Nat} {dir : Int}
  {helper : UInt32 → UInt32 → UInt32 → UInt32 × UInt32}

/-! ## Writing digits -/

theorem magnitude_take_succ {d : UInt32} (read : digits[i]? = some d) :
    magnitude (digits.take (i + 1)) = magnitude (digits.take i) + (2 ^ 32) ^ i * d.toNat :=
  words.value_take_succ read

theorem magnitude_take_set (d : UInt32) (inside : i < digits.length) :
    magnitude ((digits.set i d).take (i + 1)) =
      magnitude (digits.take i) + (2 ^ 32) ^ i * d.toNat :=
  words.value_take_set d inside

theorem magnitude_set {old : UInt32} (d : UInt32) (read : digits[i]? = some old) :
    magnitude (digits.set i d) + (2 ^ 32) ^ i * old.toNat =
      magnitude digits + (2 ^ 32) ^ i * d.toNat :=
  words.value_set d read

theorem magnitude_set_last (d : UInt32) (last : digits.length = i + 1) :
    magnitude (digits.set i d) = magnitude (digits.take i) + (2 ^ 32) ^ i * d.toNat := by
  have all := magnitude_take_set d (show i < digits.length by omega)
  rwa [List.take_of_length_le (by simp [last])] at all

theorem magnitude_take_length (digits : List UInt32) :
    magnitude (digits.take digits.length) = magnitude digits := by
  rw [List.take_length]

theorem magnitude_take_lt (digits : List UInt32) (i : Nat) :
    magnitude (digits.take i) < (2 ^ 32) ^ i := by
  apply Nat.lt_of_lt_of_le (magnitude_lt _)
  apply Nat.pow_le_pow_right (by norm_num)
  rw [List.length_take]
  omega

/-! ## The digit helpers -/

theorem addHelper_spec (x y c : UInt32) (small : c.toNat + 1 < 2 ^ 32) :
    (addHelper x y c).1.toNat + 2 ^ 32 * (addHelper x y c).2.toNat =
      x.toNat + y.toNat + 2 ^ 32 * c.toNat := by
  have boundX := x.toNat_lt
  have boundY := y.toNat_lt
  simp only [addHelper, UInt32.lt_iff_toNat_lt, UInt32.toNat_add]
  split
  · rw [UInt32.toNat_add]
    simp only [UInt32.reduceToNat]
    omega
  · omega

theorem subHelper_spec (x y c : UInt32) (small : c.toNat + 1 < 2 ^ 32) :
    (subHelper x y c).1.toNat + y.toNat + 2 ^ 32 * c.toNat =
      x.toNat + 2 ^ 32 * (subHelper x y c).2.toNat := by
  have boundX := x.toNat_lt
  have boundY := y.toNat_lt
  simp only [subHelper, gt_iff_lt, UInt32.lt_iff_toNat_lt, UInt32.toNat_sub]
  split
  · rw [UInt32.toNat_add]
    simp only [UInt32.reduceToNat]
    omega
  · omega

/-- A helper that adds (`dir = 1`) or subtracts (`dir = -1`) a digit and counts the carries. -/
structure CarryHelper (helper : UInt32 → UInt32 → UInt32 → UInt32 × UInt32) (dir : Int) : Prop where
  unit : dir = 1 ∨ dir = -1
  spec : ∀ x y c : UInt32, c.toNat + 1 < 2 ^ 32 →
    ((helper x y c).1.toNat : Int) + dir * 2 ^ 32 * (helper x y c).2.toNat =
      x.toNat + dir * y.toNat + dir * 2 ^ 32 * c.toNat

theorem addHelper_carryHelper : CarryHelper addHelper 1 where
  unit := .inl rfl
  spec := fun x y c small => by
    have := addHelper_spec x y c small
    omega

theorem subHelper_carryHelper : CarryHelper subHelper (-1) where
  unit := .inr rfl
  spec := fun x y c small => by
    have := subHelper_spec x y c small
    omega

/-- A digit and the carry. -/
theorem CarryHelper.single (is : CarryHelper helper dir) (x c : UInt32) (small : c.toNat ≤ 1) :
    ((helper x c 0).1.toNat : Int) + dir * 2 ^ 32 * (helper x c 0).2.toNat =
        x.toNat + dir * c.toNat ∧
      (helper x c 0).2.toNat ≤ 1 := by
  have step := is.spec x c 0 (by decide)
  have boundX := x.toNat_lt
  have bound := (helper x c 0).1.toNat_lt
  simp only [UInt32.toNat_zero] at step
  rcases is.unit with rfl | rfl <;> omega

/-- Two digits and the carry. -/
theorem CarryHelper.pair (is : CarryHelper helper dir) (x y c : UInt32) (small : c.toNat ≤ 1) :
    ((helper (helper x y 0).1 c (helper x y 0).2).1.toNat : Int) +
          dir * 2 ^ 32 * (helper (helper x y 0).1 c (helper x y 0).2).2.toNat =
        x.toNat + dir * y.toNat + dir * c.toNat ∧
      (helper (helper x y 0).1 c (helper x y 0).2).2.toNat ≤ 1 := by
  have first := is.spec x y 0 (by decide)
  simp only [UInt32.toNat_zero] at first
  have boundX := x.toNat_lt
  have boundY := y.toNat_lt
  have boundFirst := (helper x y 0).1.toNat_lt
  have firstCarry : (helper x y 0).2.toNat ≤ 1 := by
    rcases is.unit with rfl | rfl <;> omega
  have second := is.spec (helper x y 0).1 c (helper x y 0).2 (by omega)
  have bound := (helper (helper x y 0).1 c (helper x y 0).2).1.toNat_lt
  rcases is.unit with rfl | rfl <;> omega

/-! ## The loops of `BigintAdd` and `BigintSub` -/

/-- The digits below `i` and the carry are the sum, or the difference, of `a` and `b`; the digits
    from `i` on are still those of `fresh`. -/
structure Carries (dir : Int) (fresh : List UInt32) (i a b : Nat) (s : Carried) : Prop where
  length : s.digits.length = fresh.length
  rest : s.digits.drop i = fresh.drop i
  carry : s.carry.toNat ≤ 1
  value : (magnitude (s.digits.take i) : Int) + dir * (2 ^ 32) ^ i * s.carry.toNat = a + dir * b

theorem drop_succ_of_drop (same : digits.drop i = fresh.drop i) (d : UInt32) :
    (digits.set i d).drop (i + 1) = fresh.drop (i + 1) := by
  have rest := congrArg (List.drop 1) same
  rw [List.drop_drop, List.drop_drop] at rest
  rw [List.drop_set_of_lt (Nat.lt_succ_self i)]
  exact rest

variable {s : Carried} {b a : Nat}

/-- A digit is written on top, together with the new carry. -/
theorem Carries.write {a' b' : Nat} (before : Carries dir fresh i a b s) (out : UInt32 × UInt32)
    (inside : i < fresh.length) (small : out.2.toNat ≤ 1)
    (step : (a : Int) + dir * b + (2 ^ 32) ^ i * (out.1.toNat + dir * 2 ^ 32 * out.2.toNat) =
      a' + dir * b' + dir * (2 ^ 32) ^ i * s.carry.toNat) :
    Carries dir fresh (i + 1) a' b' ⟨s.digits.set i out.1, out.2⟩ := by
  have len := before.length
  refine ⟨by simpa using len, drop_succ_of_drop before.rest _, small, ?_⟩
  rw [magnitude_take_set _ (show i < s.digits.length by omega)]
  push_cast
  linear_combination step + before.value

/-- A borrow that is left over would make the difference negative. -/
theorem Carries.take_eq_sub (carries : Carries (-1) fresh i a b s) (larger : b ≤ a) :
    magnitude (s.digits.take i) = a - b := by
  have value := carries.value
  have small := carries.carry
  have below : (magnitude (s.digits.take i) : Int) < (2 ^ 32) ^ i := by
    exact_mod_cast magnitude_take_lt s.digits i
  have larger' : (b : Int) ≤ a := by exact_mod_cast larger
  have noBorrow : s.carry.toNat = 0 := by
    by_contra borrow
    have one : s.carry.toNat = 1 := by omega
    rw [one, Nat.cast_one] at value
    linarith
  rw [noBorrow, Nat.cast_zero] at value
  omega

/-- A sum that fits leaves no carry over. -/
theorem Carries.take_eq_add (carries : Carries 1 fresh i a b s) (fits : a + b < (2 ^ 32) ^ i) :
    magnitude (s.digits.take i) = a + b := by
  have value : magnitude (s.digits.take i) + (2 ^ 32) ^ i * s.carry.toNat = a + b := by
    have := carries.value
    zify
    linarith
  have noCarry : s.carry.toNat = 0 := by
    by_contra carry
    have large : (2 ^ 32) ^ i * 1 ≤ (2 ^ 32) ^ i * s.carry.toNat :=
      Nat.mul_le_mul_left _ (by omega)
    omega
  rw [noCarry] at value
  omega

theorem pairRound_spec (is : CarryHelper helper dir) (insideX : i < xs.length) (insideY : i < ys.length)
    (inside : i < fresh.length)
    (before : Carries dir fresh i (magnitude (xs.take i)) (magnitude (ys.take i)) s) :
    ∃ s', pairRound helper xs ys i s = .ok s' ∧
      Carries dir fresh (i + 1) (magnitude (xs.take (i + 1))) (magnitude (ys.take (i + 1))) s' := by
  have len := before.length
  obtain ⟨a, readX⟩ := exists_digit insideX
  obtain ⟨b, readY⟩ := exists_digit insideY
  obtain ⟨step, small⟩ := is.pair a b s.carry before.carry
  refine ⟨_, ?_, before.write (helper (helper a b 0).1 s.carry (helper a b 0).2) inside small ?_⟩
  · simp only [pairRound, getDigit_eq readX, getDigit_eq readY, ok_bind,
      setDigit_of_lt _ (show i < s.digits.length by omega), pure_eq_ok]
  · rw [magnitude_take_succ readX, magnitude_take_succ readY]
    push_cast
    linear_combination (2 ^ 32) ^ i * step

theorem carryRound_spec (is : CarryHelper helper dir) (insideX : i < xs.length) (inside : i < fresh.length)
    (before : Carries dir fresh i (magnitude (xs.take i)) b s) :
    ∃ s', carryRound helper xs i s = .ok s' ∧
      Carries dir fresh (i + 1) (magnitude (xs.take (i + 1))) b s' := by
  have len := before.length
  obtain ⟨a, readX⟩ := exists_digit insideX
  obtain ⟨step, small⟩ := is.single a s.carry before.carry
  refine ⟨_, ?_, before.write (helper a s.carry 0) inside small ?_⟩
  · simp only [carryRound, getDigit_eq readX, ok_bind,
      setDigit_of_lt _ (show i < s.digits.length by omega), pure_eq_ok]
  · rw [magnitude_take_succ readX]
    push_cast
    linear_combination (2 ^ 32) ^ i * step

/-- A loop over the digits of `x` that starts with a carry. -/
theorem forRange_carryRound (is : CarryHelper helper dir) (start : i ≤ xs.length)
    (room : xs.length ≤ fresh.length) (before : Carries dir fresh i (magnitude (xs.take i)) b s) :
    ∃ s', forRange (carryRound helper xs) i (xs.length - i) s = .ok s' ∧
      Carries dir fresh xs.length (magnitude xs) b s' := by
  obtain ⟨s', ran, after⟩ := forRange_spec
    (I := fun i s => Carries dir fresh i (magnitude (xs.take i)) b s) i (xs.length - i) before
    fun k s _ below inv => carryRound_spec is (show k < xs.length by omega) (by omega) inv
  rw [show i + (xs.length - i) = xs.length by omega, magnitude_take_length] at after
  exact ⟨s', ran, after⟩

theorem combineDigits_spec (is : CarryHelper helper dir) (xs ys fresh : List UInt32)
    (longer : ys.length ≤ xs.length) (room : xs.length ≤ fresh.length) :
    ∃ s, combineDigits helper xs ys fresh = .ok s ∧
      Carries dir fresh xs.length (magnitude xs) (magnitude ys) s := by
  have start : Carries dir fresh 0 (magnitude (xs.take 0)) (magnitude (ys.take 0))
      ⟨fresh, 0⟩ := ⟨rfl, rfl, Nat.zero_le 1, by simp⟩
  obtain ⟨low, ranLow, inv⟩ := forRange_spec
    (I := fun i s => Carries dir fresh i (magnitude (xs.take i)) (magnitude (ys.take i)) s)
    0 ys.length start fun k s _ below inv =>
      pairRound_spec is (show k < xs.length by omega) (show k < ys.length by omega) (by omega) inv
  rw [Nat.zero_add, magnitude_take_length ys] at inv
  obtain ⟨s, ran, after⟩ := forRange_carryRound is longer room inv
  refine ⟨s, ?_, after⟩
  rw [combineDigits, ranLow, ok_bind]
  exact ran

/-! ## `Add` and `Subtract` -/

/-- The sign as a factor. -/
def signum (sign : Bool) : Int := if sign then -1 else 1

theorem toInt_eq (x : BigInt) : x.toInt = signum x.sign * magnitude x.digits := by
  unfold toInt signum
  split <;> simp

theorem signum_not (sign : Bool) : signum (!sign) = -signum sign := by
  cases sign <;> rfl

/-- The digits that a loop has written, with their sign, truncated. -/
theorem rightTruncate_digits (sign : Bool) (positive : 0 < digits.length)
    (size : digits.length ≤ maxSize) :
    Returns (rightTruncate ⟨sign, digits⟩) (signum sign * magnitude digits) := by
  have truncated := rightTruncate_spec (show 0 < (⟨sign, digits⟩ : BigInt).length from positive) size
  rwa [toInt_eq] at truncated

theorem rightTruncate_unsigned (positive : 0 < digits.length) (size : digits.length ≤ maxSize) :
    Returns (rightTruncate ⟨false, digits⟩) (magnitude digits) :=
  rightTruncate_spec (show 0 < (⟨false, digits⟩ : BigInt).length from positive) size

theorem addLonger_spec (longer : y.length ≤ x.length) (sign : Bool) :
    ReturnsOr sizeExceeded (addLonger x y sign)
      (signum sign * (magnitude x.digits + magnitude y.digits)) := by
  unfold addLonger
  rcases createBigint_cases (x.length + 1) with ⟨-, failed⟩ | ⟨small, created⟩
  · exact .inl (by rw [failed]; rfl)
  right
  obtain ⟨s, ran, len, -, -, value⟩ := combineDigits_spec addHelper_carryHelper
    x.digits y.digits (List.replicate (x.length + 1) 0) longer
    (by rw [List.length_replicate]; exact Nat.le_succ _)
  rw [List.length_replicate] at len
  rw [show x.digits.length = x.length from rfl] at value
  have total : (magnitude (s.digits.set x.length s.carry) : Int) =
      magnitude x.digits + magnitude y.digits := by
    rw [magnitude_set_last s.carry len]
    push_cast
    linear_combination value
  rw [created, ok_bind, ran, ok_bind, setDigit_of_lt _ (by omega), ok_bind, ← total]
  exact rightTruncate_digits sign (by rw [List.length_set]; omega)
    (by rw [List.length_set]; omega)

theorem bigintAdd_spec (x y : BigInt) (sign : Bool) :
    ReturnsOr sizeExceeded (bigintAdd x y sign)
      (signum sign * (magnitude x.digits + magnitude y.digits)) := by
  unfold bigintAdd
  by_cases shorter : x.length < y.length
  · rw [if_pos shorter, Int.add_comm]
    exact addLonger_spec (Nat.le_of_lt shorter) sign
  · rw [if_neg shorter]
    exact addLonger_spec (Nat.le_of_not_lt shorter) sign

theorem bigintSub_spec (positive : 0 < x.length) (size : x.length ≤ maxSize)
    (longer : y.length ≤ x.length) (larger : magnitude y.digits ≤ magnitude x.digits)
    (sign : Bool) :
    Returns (bigintSub x y sign) (signum sign * (magnitude x.digits - magnitude y.digits)) := by
  obtain ⟨s, ran, carries⟩ := combineDigits_spec subHelper_carryHelper x.digits y.digits
    (List.replicate x.length 0) longer (by rw [List.length_replicate]; exact Nat.le_refl _)
  have len := carries.length
  rw [List.length_replicate] at len
  have total := carries.take_eq_sub larger
  rw [List.take_of_length_le (show s.digits.length ≤ x.digits.length from Nat.le_of_eq len)] at total
  have difference : (magnitude s.digits : Int) = magnitude x.digits - magnitude y.digits := by
    omega
  rw [bigintSub, createBigint_of_le size, ok_bind, ran, ok_bind, ← difference]
  exact rightTruncate_digits sign (by omega) (by omega)

/-- `skipEqual` stops at the highest digit that differs, or at digit 0. -/
theorem skipEqual_spec (n : Nat) (insideX : n < xs.length) (insideY : n < ys.length) :
    ∃ i a b, skipEqual xs ys n = .ok i ∧ i ≤ n ∧ xs[i]? = some a ∧ ys[i]? = some b ∧
      (i = 0 ∨ a ≠ b) ∧ ∀ k, i < k → k ≤ n → xs[k]? = ys[k]? := by
  induction n with
  | zero =>
    exact ⟨0, xs[0], ys[0], rfl, Nat.le_refl 0, List.getElem?_eq_getElem insideX,
      List.getElem?_eq_getElem insideY, .inl rfl, fun k above below => by omega⟩
  | succ n ih =>
    have readX : xs[n + 1]? = some xs[n + 1] := List.getElem?_eq_getElem insideX
    have readY : ys[n + 1]? = some ys[n + 1] := List.getElem?_eq_getElem insideY
    by_cases same : xs[n + 1] = ys[n + 1]
    · obtain ⟨i, a, b, found, le, readA, readB, stop, agree⟩ := ih (by omega) (by omega)
      refine ⟨i, a, b, ?_, by omega, readA, readB, stop, ?_⟩
      · simp [skipEqual, getDigit_eq readX, getDigit_eq readY, same, found]
      · intro k above below
        rcases Nat.le_succ_iff.mp below with below | rfl
        · exact agree k above below
        · rw [readX, readY, same]
    · refine ⟨n + 1, xs[n + 1], ys[n + 1], ?_, Nat.le_refl _, readX, readY, .inr same, ?_⟩
      · simp [skipEqual, getDigit_eq readX, getDigit_eq readY, same]
      · intro k above below
        omega

/-- With opposite signs, the smaller magnitude is taken from the larger one. -/
theorem subSmaller_spec (cx : x.Canonical) (cy : y.Canonical) (sign : Bool) :
    Returns (subSmaller x y sign (!sign))
      (signum sign * (magnitude x.digits - magnitude y.digits)) := by
  have swapped : signum sign * (magnitude x.digits - magnitude y.digits : Int) =
      signum (!sign) * (magnitude y.digits - magnitude x.digits) := by
    rw [signum_not]
    ring
  unfold subSmaller
  rcases Nat.lt_trichotomy x.length y.length with shorter | same | longer
  · rw [if_neg (by omega), if_neg (by omega), swapped]
    exact bigintSub_spec cy.positive cy.size (Nat.le_of_lt shorter)
      (Nat.le_of_lt (magnitude_lt_of_length_lt cy shorter cx.positive)) (!sign)
  · rw [if_neg (by omega), if_pos same]
    have sameLength : x.digits.length = y.digits.length := same
    have inside : x.length - 1 < x.digits.length := by
      have := cx.positive
      rw [length] at this ⊢
      omega
    obtain ⟨i, a, b, found, le, readX, readY, stop, agree⟩ :=
      skipEqual_spec (x.length - 1) inside (show x.length - 1 < y.digits.length by omega)
    have agree' : ∀ k, i < k → k < x.digits.length → x.digits[k]? = y.digits[k]? :=
      fun k above below => agree k above (by rw [length]; omega)
    simp only [found, ok_bind, getDigit_eq readX, getDigit_eq readY]
    by_cases greater : a > b
    · have := magnitude_lt_of_digit_lt sameLength.symm readY readX greater
        fun k above below => (agree' k above (by omega)).symm
      rw [if_pos greater]
      exact bigintSub_spec cx.positive cx.size (by omega) (by omega) sign
    · have notGreater : magnitude x.digits ≤ magnitude y.digits := by
        by_cases less : a < b
        · exact Nat.le_of_lt (magnitude_lt_of_digit_lt sameLength readX readY less agree')
        · have eq : a = b := UInt32.le_antisymm (UInt32.not_lt.mp greater) (UInt32.not_lt.mp less)
          have first : i = 0 := stop.resolve_right (fun different => different eq)
          have : x.digits.drop 0 = y.digits.drop 0 := by
            apply drop_eq_of_agree sameLength
            intro k _ below
            rcases Nat.eq_zero_or_pos k with rfl | above
            · rw [← first, readX, readY, eq]
            · exact agree' k (by omega) below
          rw [List.drop_zero, List.drop_zero] at this
          rw [this]
      rw [if_neg greater, swapped]
      exact bigintSub_spec cy.positive cy.size (by omega) notGreater (!sign)
  · rw [if_pos longer]
    exact bigintSub_spec cx.positive cx.size (Nat.le_of_lt longer)
      (Nat.le_of_lt (magnitude_lt_of_length_lt cx longer cy.positive)) sign

theorem add_spec (cx : x.Canonical) (cy : y.Canonical) :
    ReturnsOr sizeExceeded (add x y) (x.toInt + y.toInt) := by
  unfold add
  rw [toInt_eq x, toInt_eq y]
  by_cases same : x.sign = y.sign
  · have sum := bigintAdd_spec x y x.sign
    rw [if_pos same, ← same, ← Int.mul_add]
    exact sum
  · have opposite : y.sign = !x.sign := by
      cases eq : x.sign <;> cases eq' : y.sign <;> simp_all
    have difference := subSmaller_spec cx cy x.sign
    rw [if_neg same, opposite, signum_not, Int.neg_mul, ← Int.sub_eq_add_neg, ← Int.mul_sub]
    exact .inr difference

theorem subtract_spec (cx : x.Canonical) (cy : y.Canonical) :
    ReturnsOr sizeExceeded (subtract x y) (x.toInt - y.toInt) := by
  unfold subtract
  rw [toInt_eq x, toInt_eq y]
  by_cases same : x.sign = y.sign
  · have difference := subSmaller_spec cx cy x.sign
    rw [if_neg (not_not.mpr same), ← same, ← Int.mul_sub]
    exact .inr difference
  · have opposite : y.sign = !x.sign := by
      cases eq : x.sign <;> cases eq' : y.sign <;> simp_all
    have sum := bigintAdd_spec x y x.sign
    rw [if_pos same, opposite, signum_not, Int.neg_mul, Int.sub_neg, ← Int.mul_add]
    exact sum

end BigInt

end ArkRuntime
