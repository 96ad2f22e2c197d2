import ArkRuntime.BigInt.NumberModel
import ArkRuntime.BigInt.DigitDivision
import ArkRuntime.KeyHash.Doubles
import ArkRuntime.Misc.Binary64

/-!
# Rounding of a BigInt to a double

`BigIntToNumber` keeps the upper 53 bits of the magnitude and rounds by the digit that they end in and the
digits below it. Where they end with a digit, the digit below is the one that decides, and the loop over the
lower digits misses the next one; with three digits nothing is rounded. The double that is built is the
nearest one unless that matters.
-/

namespace ArkRuntime

namespace BigInt

open Binary64

variable {x : BigInt} {negative : Bool} {mantissa exponent : UInt64} {q : Nat}

/-! ## Assembled doubles -/

/-- The number is the double with this sign and pattern. -/
def IsDouble (negative : Bool) (p : Nat) (number : JSNumber) : Prop :=
  ∃ bits, number = .double bits ∧ Binary64.negative bits = negative ∧ pattern bits = p

theorem infinity_spec (negative : Bool) : IsDouble negative Binary64.infinity (infinity negative) := by
  cases negative
  · exact ⟨0x7FF0000000000000, rfl, by decide, by decide⟩
  · exact ⟨0xFFF0000000000000, rfl, by decide, by decide⟩

/-- The significand `q`, with its leading one, and the exponent. -/
theorem calculateNumber_spec (negative : Bool) (upper : mantissa.toNat + 2 ^ 52 = q)
    (high : q < 2 ^ 53) (small : exponent.toNat ≤ 1023) :
    IsDouble negative ((exponent.toNat + 1022) * 2 ^ 52 + q)
      (calculateNumber (if negative then (1 : UInt64) <<< 63 else 0) mantissa exponent) := by
  have biased : exponent + UInt64.ofNat JSNumber.doubleExponentBias =
      UInt64.ofNat (exponent.toNat + 1023) := by
    apply UInt64.toNat_inj.mp
    rw [UInt64.toNat_add, UInt64.toNat_ofNat', UInt64.toNat_ofNat', JSNumber.doubleExponentBias]
  refine ⟨_, rfl, fields_of_toNat ?_ (by omega)⟩
  rw [biased, KeyHash.toNat_fields negative (exponent.toNat + 1023) mantissa (by omega) (by omega)]
  omega

/-- `Rounding` adds the one that it rounds up by to the pattern. -/
theorem rounding_spec (negative needRound : Bool) (upper : mantissa.toNat + 2 ^ 52 = q)
    (high : q < 2 ^ 53) (small : exponent.toNat ≤ 1023) :
    IsDouble negative ((exponent.toNat + 1022) * 2 ^ 52 + q + (needRound || decide (q % 2 = 1)).toNat)
      (rounding (if negative then (1 : UInt64) <<< 63 else 0) mantissa exponent needRound) := by
  have odd : (mantissa &&& 1 == 1) = decide (q % 2 = 1) := by
    have bit : (mantissa &&& 1).toNat = mantissa.toNat % 2 := by
      rw [UInt64.toNat_and]
      exact Nat.and_two_pow_sub_one_eq_mod mantissa.toNat 1
    rw [beq_eq_decide, decide_eq_decide, ← UInt64.toNat_inj, bit]
    change _ = 1 ↔ _
    omega
  have signed : ((if negative then (1 : UInt64) <<< 63 else 0) != 0) = negative := by
    cases negative <;> decide
  rw [rounding, odd]
  by_cases up : (needRound || decide (q % 2 = 1)) = true
  · have next : (mantissa + 1).toNat = mantissa.toNat + 1 := by
      rw [UInt64.toNat_add, show (1 : UInt64).toNat = 1 from rfl]
      omega
    have next' : (exponent + 1).toNat = exponent.toNat + 1 := by
      rw [UInt64.toNat_add, show (1 : UInt64).toNat = 1 from rfl]
      omega
    have carry : ((mantissa + 1) >>> 52 != 0) = decide (q + 1 = 2 ^ 53) := by
      rw [Bool.eq_iff_iff, bne_iff_ne, decide_eq_true_iff, ne_eq, ← UInt64.toNat_inj,
        UInt64.toNat_shiftRight, Nat.shiftRight_eq_div_pow, next]
      change ¬ (mantissa.toNat + 1) / 2 ^ 52 = 0 ↔ _
      omega
    have large : exponent + 1 > UInt64.ofNat JSNumber.doubleExponentBias ↔ exponent.toNat = 1023 := by
      rw [gt_iff_lt, UInt64.lt_iff_toNat_lt, next']
      change 1023 < _ ↔ _
      omega
    simp only [up, if_true, carry, large, signed, Bool.toNat_true]
    by_cases last : q + 1 = 2 ^ 53
    · rw [decide_eq_true last, if_pos rfl]
      by_cases top : exponent.toNat = 1023
      · rw [if_pos top]
        have eq : (exponent.toNat + 1022) * 2 ^ 52 + q + 1 = Binary64.infinity := by
          rw [Binary64.infinity]
          omega
        rw [eq]
        exact infinity_spec negative
      · rw [if_neg top]
        have empty : (0 : UInt64).toNat + 2 ^ 52 = 2 ^ 52 := by
          rw [show (0 : UInt64).toNat = 0 from rfl, Nat.zero_add]
        have built := calculateNumber_spec negative empty (by decide)
          (show (exponent + 1).toNat ≤ 1023 by omega)
        have eq : (exponent.toNat + 1022) * 2 ^ 52 + q + 1 =
            ((exponent + 1).toNat + 1022) * 2 ^ 52 + 2 ^ 52 := by
          omega
        rw [eq]
        exact built
    · rw [decide_eq_false last]
      have upper' : (mantissa + 1).toNat + 2 ^ 52 = q + 1 := by omega
      have built := calculateNumber_spec negative upper' (by omega) small
      rw [← Nat.add_assoc] at built
      exact built
  · simp only [Bool.not_eq_true] at up
    simp only [up, Bool.false_eq_true, if_false, Bool.toNat_false, Nat.add_zero]
    exact calculateNumber_spec negative upper high small

/-! ## The digit that decides -/

/-- The mantissa `q` is rounded up, if the digit that it ends in has these lower bits `rest` of `2 * half`
    many, and `lower` says whether there is more below the digit. -/
def roundsUp (half rest q : Nat) (lower : Bool) : Bool :=
  decide (half < rest) || (decide (rest = half) && (lower || decide (q % 2 = 1)))

theorem roundsUp_iff {half rest q : Nat} {lower : Bool} :
    roundsUp half rest q lower = true ↔ half < rest ∨ (rest = half ∧ (lower = true ∨ q % 2 = 1)) := by
  simp only [roundsUp, Bool.or_eq_true, Bool.and_eq_true, decide_eq_true_iff]

theorem nonzeroBelow_spec (digits : List UInt32) (n : Nat) (inside : n ≤ digits.length) :
    nonzeroBelow digits n = .ok (decide (magnitude (digits.take n) ≠ 0)) := by
  induction n with
  | zero => rfl
  | succ n ih =>
    have inside' : n < digits.length := inside
    have read : digits[n]? = some digits[n] := List.getElem?_eq_getElem inside'
    have value := words.value_take_succ read
    rw [nonzeroBelow, getDigit_of_lt inside', ok_bind]
    by_cases zero : digits[n] = 0
    · rw [if_neg (by simpa using zero), ih (by omega)]
      rw [zero, words_weight, show (0 : UInt32).toNat = 0 from rfl, Nat.mul_zero] at value
      have same : magnitude (digits.take (n + 1)) = magnitude (digits.take n) := value
      rw [same]
    · rw [if_pos zero]
      have weight := (weight_pos_iff digits[n]).mpr zero
      have power := words.base_pow_pos n
      have positive : 0 < words.base ^ n * words.weight digits[n] := Nat.mul_pos power weight
      rw [decide_eq_true (by rw [magnitude, value]; omega)]
      rfl

/-- The lower bits of a digit, as the masks of `BigIntToNumber` test them. -/
theorem digit_bits (digit : UInt32) {t : Nat} (positive : 0 < t) (small : t ≤ 32) :
    (digit &&& ((1 : UInt64) <<< UInt64.ofNat (t - 1)).toUInt32 = 0 ↔
        digit.toNat % 2 ^ t < 2 ^ (t - 1)) ∧
      (digit &&& (((1 : UInt64) <<< UInt64.ofNat (t - 1)).toUInt32 - 1) = 0 ↔
        digit.toNat % 2 ^ (t - 1) = 0) := by
  obtain ⟨n, rfl⟩ : ∃ n, t = n + 1 := ⟨t - 1, by omega⟩
  have power : 2 ^ n < 2 ^ 32 := Nat.pow_lt_pow_right (by decide) small
  have temp : (((1 : UInt64) <<< UInt64.ofNat n).toUInt32).toNat = 2 ^ n := by
    rw [UInt64.toNat_toUInt32, UInt64.toNat_shiftLeft, UInt64.toNat_ofNat', Nat.shiftLeft_eq]
    rw [show n % 2 ^ 64 % 64 = n by omega, show (1 : UInt64).toNat = 1 from rfl]
    omega
  have pred : (((1 : UInt64) <<< UInt64.ofNat n).toUInt32 - 1).toNat = 2 ^ n - 1 := by
    have one : 1 ≤ 2 ^ n := Nat.one_le_two_pow
    rw [UInt32.toNat_sub, temp]
    change (2 ^ 32 - 1 + 2 ^ n) % 2 ^ 32 = _
    omega
  rw [Nat.add_sub_cancel]
  constructor
  · rw [← UInt32.toNat_inj, UInt32.toNat_and, temp, Nat.and_two_pow, Nat.mod_pow_succ,
      ← Nat.toNat_testBit]
    change _ = 0 ↔ _
    have below : digit.toNat % 2 ^ n < 2 ^ n := Nat.mod_lt _ (Nat.two_pow_pos n)
    cases digit.toNat.testBit n
    · simp only [Bool.toNat_false]
      omega
    · simp only [Bool.toNat_true]
      omega
  · rw [← UInt32.toNat_inj, UInt32.toNat_and, pred, Nat.and_two_pow_sub_one_eq_mod]
    rfl

theorem roundDigit_spec (negative : Bool) (upper : mantissa.toNat + 2 ^ 52 = q) (high : q < 2 ^ 53)
    (small : exponent.toNat ≤ 1023) (digit : UInt32) {t : Nat} (positive : 0 < t) (fits : t ≤ 32)
    {index : Int} (inside : index.toNat ≤ x.digits.length) :
    ∃ number, roundDigit x (if negative then (1 : UInt64) <<< 63 else 0) mantissa exponent digit t index =
        .ok number ∧
      IsDouble negative ((exponent.toNat + 1022) * 2 ^ 52 + q +
        (roundsUp (2 ^ (t - 1)) (digit.toNat % 2 ^ t) q
          (decide (magnitude (x.digits.take index.toNat) ≠ 0))).toNat) number := by
  obtain ⟨roundBit, sticky⟩ := digit_bits digit positive fits
  have half : 2 ^ t = 2 * 2 ^ (t - 1) := by
    rw [← Nat.pow_succ', show (t - 1).succ = t by omega]
  have below : digit.toNat % 2 ^ t < 2 ^ t := Nat.mod_lt _ (Nat.two_pow_pos t)
  have lower : digit.toNat % 2 ^ t % 2 ^ (t - 1) = digit.toNat % 2 ^ (t - 1) :=
    Nat.mod_mod_of_dvd _ (Nat.pow_dvd_pow 2 (Nat.sub_le t 1))
  simp only [roundDigit]
  by_cases down : digit.toNat % 2 ^ t < 2 ^ (t - 1)
  · refine ⟨_, if_pos (roundBit.mpr down), ?_⟩
    have no : roundsUp (2 ^ (t - 1)) (digit.toNat % 2 ^ t) q
        (decide (magnitude (x.digits.take index.toNat) ≠ 0)) = false := by
      rw [roundsUp, decide_eq_false (by omega), decide_eq_false (by omega)]
      rfl
    rw [no, Bool.toNat_false, Nat.add_zero]
    exact calculateNumber_spec negative upper high small
  rw [if_neg (roundBit.not.mpr down)]
  have rest : digit.toNat % 2 ^ t = 2 ^ (t - 1) + digit.toNat % 2 ^ (t - 1) := by
    have step : digit.toNat % 2 ^ t % 2 ^ (t - 1) = digit.toNat % 2 ^ t - 2 ^ (t - 1) := by
      rw [Nat.mod_eq_sub_mod (by omega), Nat.mod_eq_of_lt (by omega)]
    omega
  by_cases exactHalf : digit.toNat % 2 ^ (t - 1) = 0
  · rw [if_neg (by simpa using sticky.mpr exactHalf), nonzeroBelow_spec _ _ inside, ok_bind]
    refine ⟨_, rfl, ?_⟩
    have tie : roundsUp (2 ^ (t - 1)) (digit.toNat % 2 ^ t) q
        (decide (magnitude (x.digits.take index.toNat) ≠ 0)) =
          (decide (magnitude (x.digits.take index.toNat) ≠ 0) || decide (q % 2 = 1)) := by
      rw [roundsUp, decide_eq_false (by omega), decide_eq_true (by omega), Bool.false_or, Bool.true_and]
    rw [tie]
    exact rounding_spec negative _ upper high small
  · rw [if_pos (sticky.not.mpr exactHalf)]
    refine ⟨_, rfl, ?_⟩
    have more : roundsUp (2 ^ (t - 1)) (digit.toNat % 2 ^ t) q
        (decide (magnitude (x.digits.take index.toNat) ≠ 0)) = (true || decide (q % 2 = 1)) := by
      rw [roundsUp, decide_eq_true (by omega)]
      rfl
    rw [more]
    exact rounding_spec negative true upper high small

/-! ## The nearest double -/

theorem mod_split (m a b : Nat) :
    m % 2 ^ (a + b) = m / 2 ^ a % 2 ^ b * 2 ^ a + m % 2 ^ a := by
  rw [Nat.pow_add, Nat.mod_mul, Nat.mul_comm, Nat.add_comm]

/-- The half of the lower bits, by the bits of the digit that decides and what is below it. -/
theorem half_cases (half rest : Nat) {low power : Nat} (below : low < power) :
    (2 * half * power < 2 * (rest * power + low) ↔ half < rest ∨ (rest = half ∧ low ≠ 0)) ∧
      (2 * (rest * power + low) = 2 * half * power ↔ rest = half ∧ low = 0) ∧
      (2 * (rest * power + low) < 2 * half * power ↔ rest < half) := by
  have double : 2 * half * power = 2 * (half * power) := Nat.mul_assoc 2 half power
  rcases Nat.lt_trichotomy half rest with less | same | greater
  · have step : (half + 1) * power ≤ rest * power := Nat.mul_le_mul_right _ less
    rw [Nat.succ_mul] at step
    omega
  · subst same
    omega
  · have step : (rest + 1) * power ≤ half * power := Nat.mul_le_mul_right _ greater
    rw [Nat.succ_mul] at step
    omega

/-- Of the two doubles next to an integer with more than 53 bits, the rounding by the bits at `j` takes the
    nearest. -/
theorem isNearest_roundsUp {m width j t : Nat} (low : 2 ^ width ≤ 2 * m) (high : m < 2 ^ width)
    (positive : 0 < t) (bits : width = 53 + (j + t)) (small : width ≤ 1024) (up : Bool) :
    IsNearest scaled Binary64.infinity (m * one) ((width + 1021) * 2 ^ 52 + m / 2 ^ (j + t) + up.toNat) ↔
      roundsUp (2 ^ (t - 1)) (m / 2 ^ j % 2 ^ t) (m / 2 ^ (j + t)) (decide (m % 2 ^ j ≠ 0)) = up := by
  have power : 2 ^ width = 2 ^ 53 * 2 ^ (j + t) := by rw [bits, Nat.pow_add]
  have half : 2 ^ (j + t) = 2 * 2 ^ (t - 1) * 2 ^ j := by
    rw [← Nat.pow_succ', show (t - 1).succ = t by omega, ← Nat.pow_add, Nat.add_comm]
  have lower : 2 ^ 52 ≤ m / 2 ^ (j + t) := by
    rw [Nat.le_div_iff_mul_le (Nat.two_pow_pos _)]
    omega
  have upper : m / 2 ^ (j + t) < 2 ^ 53 := by
    rw [Nat.div_lt_iff_lt_mul (Nat.two_pow_pos _), ← power]
    exact high
  have parts : m = m / 2 ^ (j + t) * 2 ^ (j + t) + m % 2 ^ (j + t) := by
    rw [Nat.mul_comm]
    exact (Nat.div_add_mod m _).symm
  obtain ⟨above, tie, below⟩ := half_cases (2 ^ (t - 1)) (m / 2 ^ j % 2 ^ t)
    (Nat.mod_lt m (Nat.two_pow_pos j))
  have nearest := isNearest_truncated parts (Nat.mod_lt _ (Nat.two_pow_pos _)) lower upper
    (by omega) up
  rw [show j + t + 1074 = width + 1021 by omega, mod_split, half, above, tie, below, ← half] at nearest
  refine nearest.trans ?_
  cases up with
  | true =>
    rw [if_pos rfl, roundsUp_iff, decide_eq_true_iff]
    generalize m / 2 ^ (j + t) = q
    omega
  | false =>
    rw [if_neg Bool.false_ne_true, ← Bool.not_eq_true, roundsUp_iff, decide_eq_true_iff]
    generalize m / 2 ^ (j + t) = q
    omega

/-! ## The top digit -/

/-- The top digit and its leading zeros. -/
structure Head (x : BigInt) (head : UInt32) (zeros : Nat) : Prop where
  read : x.digits[x.length - 1]? = some head
  leadingZeros : (countLeadingZeros head).toNat = zeros
  small : zeros < 32
  low : 2 ^ 31 ≤ head.toNat * 2 ^ zeros
  high : head.toNat * 2 ^ zeros < 2 ^ 32

theorem Canonical.exists_head (canonical : x.Canonical) (nonzero : x.digits ≠ [0]) :
    ∃ head zeros, Head x head zeros := by
  obtain ⟨head, read, positive⟩ := canonical.exists_top nonzero
  obtain ⟨small, low, high⟩ := countLeadingZeros_spec ((weight_pos_iff head).mp positive)
  exact ⟨head, _, read, rfl, small, low, high⟩

theorem magnitude_drop_of_read {digits : List UInt32} {i : Nat} {d : UInt32} (read : digits[i]? = some d) :
    magnitude (digits.drop i) = d.toNat + 2 ^ 32 * magnitude (digits.drop (i + 1)) := by
  obtain ⟨inside, rfl⟩ := List.getElem?_eq_some_iff.mp read
  rw [List.drop_eq_getElem_cons inside, magnitude_cons]

theorem magnitude_div (digits : List UInt32) (i : Nat) :
    magnitude digits / 2 ^ (32 * i) = magnitude (digits.drop i) := by
  rw [Nat.pow_mul]
  exact words.value_div_pow digits i

theorem magnitude_mod (digits : List UInt32) (i : Nat) :
    magnitude digits % 2 ^ (32 * i) = magnitude (digits.take i) := by
  rw [Nat.pow_mul]
  exact words.value_mod_pow digits i

namespace Head

variable {head : UInt32} {zeros : Nat}

theorem positive (top : Head x head zeros) : 0 < x.length := by
  have inside := (List.getElem?_eq_some_iff.mp top.read).1
  rw [length]
  omega

theorem magnitude_top (top : Head x head zeros) :
    magnitude (x.digits.drop (x.length - 1)) = head.toNat := by
  have positive := top.positive
  have rest : x.digits.drop (x.length - 1 + 1) = [] :=
    List.drop_eq_nil_of_le (by rw [length] at positive ⊢; omega)
  rw [magnitude_drop_of_read top.read, rest, magnitude_nil, Nat.mul_zero, Nat.add_zero]

/-- The bit length. -/
theorem width (top : Head x head zeros) :
    2 ^ (32 * x.length - zeros) ≤ 2 * magnitude x.digits ∧
      magnitude x.digits < 2 ^ (32 * x.length - zeros) := by
  have positive := top.positive
  have small := top.small
  have parts := Nat.div_add_mod (magnitude x.digits) (2 ^ (32 * (x.length - 1)))
  rw [magnitude_div, top.magnitude_top] at parts
  have rest := Nat.mod_lt (magnitude x.digits) (Nat.two_pow_pos (32 * (x.length - 1)))
  have split : 2 ^ (32 * x.length - zeros) = 2 ^ (32 * (x.length - 1)) * 2 ^ (32 - zeros) := by
    rw [← Nat.pow_add]
    congr 1
    omega
  have whole : 2 ^ (32 - zeros) * 2 ^ zeros = 2 ^ 32 := by
    rw [← Nat.pow_add, Nat.sub_add_cancel (Nat.le_of_lt small)]
  have upper : head.toNat < 2 ^ (32 - zeros) := by
    apply Nat.lt_of_mul_lt_mul_right (a := 2 ^ zeros)
    rw [whole]
    exact top.high
  have lower : 2 ^ (32 - zeros) ≤ 2 * head.toNat := by
    apply Nat.le_of_mul_le_mul_right (c := 2 ^ zeros) _ (Nat.two_pow_pos zeros)
    rw [whole, Nat.mul_assoc]
    exact Nat.mul_le_mul_left 2 top.low
  have above := Nat.mul_le_mul_left (2 ^ (32 * (x.length - 1))) lower
  have below := Nat.mul_le_mul_left (2 ^ (32 * (x.length - 1))) upper
  rw [Nat.mul_succ] at below
  rw [split]
  rw [Nat.mul_left_comm] at above
  omega

end Head

/-! ## The mantissa -/

theorem headMantissa_spec {head : UInt32} {zeros : Nat} (small : zeros < 32)
    (low : 2 ^ 31 ≤ head.toNat * 2 ^ zeros) (high : head.toNat * 2 ^ zeros < 2 ^ 32) :
    (headMantissa head (zeros + dateBits + 1)).toNat + 2 ^ 52 = head.toNat * 2 ^ (zeros + 21) := by
  rw [Nat.pow_add, ← Nat.mul_assoc]
  by_cases last : zeros = 31
  · subst last
    have single : head.toNat = 1 := by omega
    have empty : headMantissa head (31 + dateBits + 1) = 0 := if_pos rfl
    rw [empty, single, show (0 : UInt64).toNat = 0 from rfl]
    omega
  · have shift : zeros + dateBits + 1 = zeros + 33 := rfl
    have shifted : (head.toUInt64 <<< UInt64.ofNat (zeros + 33)).toNat =
        head.toNat * 2 ^ zeros * 2 ^ 33 % 2 ^ 64 := by
      rw [UInt64.toNat_shiftLeft, Nat.shiftLeft_eq, UInt32.toNat_toUInt64, UInt64.toNat_ofNat',
        show (zeros + 33) % 2 ^ 64 % 64 = zeros + 33 by omega, Nat.pow_add, ← Nat.mul_assoc]
    rw [headMantissa, shift, if_neg (by omega), UInt64.toNat_shiftRight, Nat.shiftRight_eq_div_pow,
      shifted]
    change _ / 2 ^ 12 + _ = _
    omega

/-- Lower bits are put under a mantissa. -/
theorem toNat_or_low {a i : Nat} {lower : UInt64} (upper : mantissa.toNat + 2 ^ 52 = a * 2 ^ i)
    (le : i ≤ 52) (below : lower.toNat < 2 ^ i) :
    (mantissa ||| lower).toNat + 2 ^ 52 = a * 2 ^ i + lower.toNat := by
  have hidden : 2 ^ 52 = 2 ^ i * 2 ^ (52 - i) := by rw [← Nat.pow_add, Nat.add_sub_cancel' le]
  have multiple : mantissa.toNat = 2 ^ i * (a - 2 ^ (52 - i)) := by
    rw [Nat.mul_sub, ← hidden, Nat.mul_comm]
    omega
  have joined := Nat.two_pow_add_eq_or_of_lt below (a - 2 ^ (52 - i))
  rw [← multiple] at joined
  rw [UInt64.toNat_or, ← joined]
  omega

section Padding

variable {head digit : UInt32} {zeros r k a : Nat}

theorem padWhole_narrow (narrow : zeros ≤ 10) (index : Int) :
    padWhole ⟨mantissa, ((zeros + dateBits + 1 : Nat) : Int) - 12, index, digit⟩ =
      ⟨mantissa, ((zeros + 21 : Nat) : Int), index, digit⟩ := by
  have remain : ((zeros + dateBits + 1 : Nat) : Int) - 12 = ((zeros + 21 : Nat) : Int) := by
    rw [dateBits]
    omega
  rw [remain]
  exact if_neg (by simp only [dateBits]; omega)

theorem padWhole_wide (wide : 11 ≤ zeros) (small : zeros < 32) (index : Int)
    (upper : mantissa.toNat + 2 ^ 52 = a * 2 ^ (zeros + 21)) :
    ∃ mantissa', padWhole ⟨mantissa, ((zeros + dateBits + 1 : Nat) : Int) - 12, index, digit⟩ =
        ⟨mantissa', ((zeros - 11 : Nat) : Int), index - 1, digit⟩ ∧
      mantissa'.toNat + 2 ^ 52 = (a * 2 ^ 32 + digit.toNat) * 2 ^ (zeros - 11) := by
  have remain : ((zeros + dateBits + 1 : Nat) : Int) - 12 - dateBits = ((zeros - 11 : Nat) : Int) := by
    rw [dateBits]
    omega
  have shifted : (digit.toUInt64 <<< UInt64.ofNat (zeros - 11)).toNat =
      digit.toNat * 2 ^ (zeros - 11) := by
    have fits : digit.toNat * 2 ^ (zeros - 11) < 2 ^ 32 * 2 ^ 20 :=
      Nat.mul_lt_mul_of_lt_of_le digit.toNat_lt (Nat.pow_le_pow_right (by decide) (by omega))
        (Nat.two_pow_pos _)
    rw [UInt64.toNat_shiftLeft, Nat.shiftLeft_eq, UInt32.toNat_toUInt64, UInt64.toNat_ofNat',
      show (zeros - 11) % 2 ^ 64 % 64 = zeros - 11 by omega, Nat.mod_eq_of_lt (by omega)]
  have whole : 2 ^ (zeros + 21) = 2 ^ 32 * 2 ^ (zeros - 11) := by
    rw [← Nat.pow_add]
    congr 1
    omega
  have below : (digit.toUInt64 <<< UInt64.ofNat (zeros - 11)).toNat < 2 ^ (zeros + 21) := by
    rw [shifted, whole]
    exact Nat.mul_lt_mul_of_pos_right digit.toNat_lt (Nat.two_pow_pos _)
  have padded := toNat_or_low upper (by omega) below
  refine ⟨mantissa ||| digit.toUInt64 <<< UInt64.ofNat (zeros - 11), ?_, ?_⟩
  · rw [padWhole, if_pos (by simp only [dateBits]; omega)]
    simp only [remain, Int.toNat_natCast]
  · rw [padded, shifted, whole, Nat.add_mul, Nat.mul_assoc]

theorem padPart_spec (positive : 0 < r) (small : r < 32) (read : x.digits[k]? = some digit)
    (old : UInt32) (upper : mantissa.toNat + 2 ^ 52 = a * 2 ^ r) :
    ∃ mantissa', padPart x ⟨mantissa, r, k, old⟩ = .ok ⟨mantissa', (r : Int) - dateBits, k, digit⟩ ∧
      mantissa'.toNat + 2 ^ 52 = (a * 2 ^ 32 + digit.toNat) / 2 ^ (32 - r) := by
  have whole : 2 ^ 32 = 2 ^ r * 2 ^ (32 - r) := by rw [← Nat.pow_add, Nat.add_sub_cancel' (by omega)]
  have amount : ((dateBits : Int) - (r : Int)).toNat = 32 - r := by
    rw [dateBits]
    omega
  have shifted : (digit.toUInt64 >>> UInt64.ofNat (32 - r)).toNat = digit.toNat / 2 ^ (32 - r) := by
    rw [UInt64.toNat_shiftRight, Nat.shiftRight_eq_div_pow, UInt32.toNat_toUInt64,
      UInt64.toNat_ofNat', show (32 - r) % 2 ^ 64 % 64 = 32 - r by omega]
  have below : (digit.toUInt64 >>> UInt64.ofNat (32 - r)).toNat < 2 ^ r := by
    rw [shifted, Nat.div_lt_iff_lt_mul (Nat.two_pow_pos _), ← whole]
    exact digit.toNat_lt
  have padded := toNat_or_low upper (by omega) below
  refine ⟨mantissa ||| digit.toUInt64 >>> UInt64.ofNat (32 - r), ?_, ?_⟩
  · rw [padPart, if_pos ⟨by simp only; omega, by simp only; omega⟩]
    simp only [Int.toNat_natCast, getDigit_eq read, ok_bind, amount]
    rfl
  · rw [padded, shifted, whole, ← Nat.mul_assoc, Nat.add_comm (a * 2 ^ r * 2 ^ (32 - r)),
      Nat.add_mul_div_right _ _ (Nat.two_pow_pos _), Nat.add_comm]

end Padding

/-! ## The number that is built -/

/-- The number is the double with the sign of the BigInt and the pattern `p`. -/
def Builds (x : BigInt) (result : Except BigIntFault JSNumber) (p : Nat) : Prop :=
  ∃ number, result = .ok number ∧ IsDouble x.sign p number

section Cases

variable {head digit : UInt32} {zeros j t k : Nat}

theorem mod_of_read (read : x.digits[k]? = some digit) (fits : t ≤ 32) :
    magnitude x.digits / 2 ^ (32 * k) % 2 ^ t = digit.toNat % 2 ^ t := by
  have multiple : 2 ^ t ∣ 2 ^ 32 * magnitude (x.digits.drop (k + 1)) :=
    Nat.dvd_mul_right_of_dvd (Nat.pow_dvd_pow 2 fits) _
  rw [magnitude_div, magnitude_drop_of_read read, Nat.add_mod, Nat.mod_eq_zero_of_dvd multiple,
    Nat.add_zero, Nat.mod_mod]

/-- The rounding by the `t` lower bits of the digit at `k`, and the digits below `index`. -/
theorem roundDigit_builds (top : Head x head zeros) (read : x.digits[k]? = some digit)
    (positive : 0 < t) (fits : t ≤ 32) (width : 32 * x.length - zeros = 53 + (32 * k + t))
    (small : 32 * x.length - zeros ≤ 1024)
    (upper : mantissa.toNat + 2 ^ 52 = magnitude (x.digits.drop k) / 2 ^ t)
    (power : exponent.toNat = 32 * x.length - zeros - 1) {index : Int}
    (inside : index.toNat ≤ x.digits.length) :
    Builds x (roundDigit x (if x.sign then (1 : UInt64) <<< 63 else 0) mantissa exponent digit t index)
      ((32 * x.length - zeros + 1021) * 2 ^ 52 + magnitude x.digits / 2 ^ (32 * k + t) +
        (roundsUp (2 ^ (t - 1)) (magnitude x.digits / 2 ^ (32 * k) % 2 ^ t)
          (magnitude x.digits / 2 ^ (32 * k + t))
          (decide (magnitude (x.digits.take index.toNat) ≠ 0))).toNat) := by
  obtain ⟨low, high⟩ := top.width
  have quotient : magnitude (x.digits.drop k) / 2 ^ t = magnitude x.digits / 2 ^ (32 * k + t) := by
    rw [← magnitude_div, Nat.div_div_eq_div_mul, ← Nat.pow_add]
  have bound : magnitude x.digits / 2 ^ (32 * k + t) < 2 ^ 53 := by
    rw [Nat.div_lt_iff_lt_mul (Nat.two_pow_pos _), ← Nat.pow_add, ← width]
    exact high
  rw [quotient] at upper
  obtain ⟨number, run, built⟩ := roundDigit_spec x.sign upper bound
    (show exponent.toNat ≤ 1023 by omega) digit positive fits inside
  refine ⟨number, run, ?_⟩
  rw [mod_of_read read fits, show 32 * x.length - zeros + 1021 = exponent.toNat + 1022 by omega]
  exact built

/-- Only the lower bits below the digit are looked at: the nearest double is built. -/
theorem isNearest_of_take (top : Head x head zeros) (positive : 0 < t)
    (width : 32 * x.length - zeros = 53 + (32 * k + t)) (small : 32 * x.length - zeros ≤ 1024)
    (up : Bool) :
    IsNearest scaled Binary64.infinity (magnitude x.digits * one)
        ((32 * x.length - zeros + 1021) * 2 ^ 52 + magnitude x.digits / 2 ^ (32 * k + t) + up.toNat) ↔
      roundsUp (2 ^ (t - 1)) (magnitude x.digits / 2 ^ (32 * k) % 2 ^ t)
        (magnitude x.digits / 2 ^ (32 * k + t)) (decide (magnitude (x.digits.take k) ≠ 0)) = up := by
  obtain ⟨low, high⟩ := top.width
  rw [← magnitude_mod]
  exact isNearest_roundsUp low high positive width small up

theorem toNat_exponent (small : 32 * x.length - zeros ≤ 1024) :
    (UInt64.ofNat (x.length * dateBits - zeros - 1)).toNat = 32 * x.length - zeros - 1 := by
  rw [UInt64.toNat_ofNat', dateBits, Nat.mul_comm x.length 32]
  omega

/-- `BigIntToNumber` from the padding on. -/
theorem bigIntToNumber_eq (top : Head x head zeros) (nonzero : x.isZero = false)
    (small : 32 * x.length - zeros ≤ 1024) (long : 2 ≤ x.length)
    (read : x.digits[x.length - 2]? = some digit) :
    bigIntToNumber x =
      (padPart x (padWhole ⟨headMantissa head (zeros + dateBits + 1),
        ((zeros + dateBits + 1 : Nat) : Int) - 12, ((x.length - 2 : Nat) : Int), digit⟩) >>=
          roundPadded x (if x.sign then (1 : UInt64) <<< 63 else 0)
            (UInt64.ofNat (x.length * dateBits - zeros - 1))) := by
  have short : ¬ x.length * dateBits - zeros > JSNumber.doubleExponentBias + 1 := by
    rw [dateBits, JSNumber.doubleExponentBias, Nat.mul_comm x.length 32]
    omega
  rw [bigIntToNumber, nonzero]
  simp only [Bool.false_eq_true, if_false, getDigit_eq top.read, ok_bind, top.leadingZeros, short,
    show x.length - 1 > 0 by omega, if_true, getDigit_eq read]

/-- Infinity. -/
theorem bigIntToNumber_large (top : Head x head zeros) (nonzero : x.isZero = false)
    (large : 1024 < 32 * x.length - zeros) : Builds x (bigIntToNumber x) Binary64.infinity := by
  have long : x.length * dateBits - zeros > JSNumber.doubleExponentBias + 1 := by
    rw [dateBits, JSNumber.doubleExponentBias, Nat.mul_comm x.length 32]
    exact large
  refine ⟨infinity x.sign, ?_, infinity_spec x.sign⟩
  rw [bigIntToNumber, nonzero]
  simp only [Bool.false_eq_true, if_false, getDigit_eq top.read, ok_bind, top.leadingZeros, long,
    if_true]
  rfl

theorem bigIntToNumber_single (top : Head x head zeros) (nonzero : x.isZero = false)
    (single : x.length = 1) : Builds x (bigIntToNumber x)
      ((32 * x.length - zeros + 1021) * 2 ^ 52 +
        magnitude x.digits * 2 ^ (53 - (32 * x.length - zeros))) := by
  have small := top.small
  have power : (UInt64.ofNat (x.length * dateBits - zeros - 1)).toNat = 32 * x.length - zeros - 1 :=
    toNat_exponent (by omega)
  have value : magnitude x.digits = head.toNat := by
    have whole := top.magnitude_top
    rwa [single, Nat.sub_self, List.drop_zero] at whole
  have upper := headMantissa_spec top.small top.low top.high
  have shift : 53 - (32 * x.length - zeros) = zeros + 21 := by omega
  have high : head.toNat * 2 ^ (zeros + 21) < 2 ^ 53 := by
    rw [Nat.pow_add, ← Nat.mul_assoc]
    have := top.high
    omega
  have built := calculateNumber_spec x.sign upper high
    (show (UInt64.ofNat (x.length * dateBits - zeros - 1)).toNat ≤ 1023 by omega)
  have short : ¬ x.length * dateBits - zeros > JSNumber.doubleExponentBias + 1 := by
    rw [dateBits, JSNumber.doubleExponentBias, Nat.mul_comm x.length 32]
    omega
  rw [value, shift, show 32 * x.length - zeros + 1021 =
    (UInt64.ofNat (x.length * dateBits - zeros - 1)).toNat + 1022 by omega]
  refine ⟨_, ?_, built⟩
  rw [bigIntToNumber, nonzero]
  simp only [Bool.false_eq_true, if_false, getDigit_eq top.read, ok_bind, top.leadingZeros, short,
    show ¬ x.length - 1 > 0 by omega]
  rfl

/-- The upper bits end inside the digit at `k`, after its `r` upper bits. -/
theorem bigIntToNumber_inside (top : Head x head zeros) (small : 32 * x.length - zeros ≤ 1024)
    (read : x.digits[k]? = some digit) (positive : 0 < r) (few : r < 32)
    (width : 32 * x.length - zeros = 53 + (32 * k + (32 - r))) (old : UInt32)
    (upper : mantissa.toNat + 2 ^ 52 = magnitude (x.digits.drop (k + 1)) * 2 ^ r)
    (run : bigIntToNumber x = (padPart x ⟨mantissa, r, k, old⟩ >>=
      roundPadded x (if x.sign then (1 : UInt64) <<< 63 else 0) (UInt64.ofNat (x.length * dateBits - zeros - 1)))) :
    ∃ p, Builds x (bigIntToNumber x) p ∧
      IsNearest scaled Binary64.infinity (magnitude x.digits * one) p := by
  obtain ⟨mantissa', padded, filled⟩ := padPart_spec positive few read old upper
  rw [Nat.mul_comm, Nat.add_comm _ digit.toNat, ← magnitude_drop_of_read read] at filled
  have inside : (k : Int).toNat ≤ x.digits.length := by
    rw [Int.toNat_natCast]
    exact Nat.le_of_lt (List.getElem?_eq_some_iff.mp read).1
  have built := roundDigit_builds top read (by omega) (by omega) width small filled (toNat_exponent small) inside
  have remain : (r : Int) - dateBits = -((32 - r : Nat) : Int) := by
    rw [dateBits]
    omega
  rw [Int.toNat_natCast] at built
  refine ⟨_, ?_, (isNearest_of_take top (by omega) width small _).mpr rfl⟩
  rw [run, padded, ok_bind, remain, roundPadded, if_neg (by simp only; omega), if_pos (by simp only; omega)]
  simp only [Int.neg_neg, Int.toNat_natCast]
  exact built

/-- The upper bits end inside the second digit. -/
theorem bigIntToNumber_second (top : Head x head zeros) (nonzero : x.isZero = false)
    (small : 32 * x.length - zeros ≤ 1024) (long : 2 ≤ x.length) (narrow : zeros ≤ 10) :
    ∃ p, Builds x (bigIntToNumber x) p ∧
      IsNearest scaled Binary64.infinity (magnitude x.digits * one) p := by
  obtain ⟨digit, read⟩ := exists_digit (show x.length - 2 < x.digits.length by rw [length] at *; omega)
  have upper := headMantissa_spec top.small top.low top.high
  rw [← top.magnitude_top, show x.length - 1 = x.length - 2 + 1 by omega] at upper
  refine bigIntToNumber_inside top small read (by omega) (by omega) (by omega) digit upper ?_
  rw [bigIntToNumber_eq top nonzero small long read, padWhole_narrow narrow]

/-- A whole digit is put under the top one. -/
theorem padWhole_second (top : Head x head zeros) (long : 2 ≤ x.length) (wide : 11 ≤ zeros)
    (read : x.digits[x.length - 2]? = some digit) :
    ∃ mantissa, padWhole ⟨headMantissa head (zeros + dateBits + 1),
        ((zeros + dateBits + 1 : Nat) : Int) - 12, ((x.length - 2 : Nat) : Int), digit⟩ =
          ⟨mantissa, ((zeros - 11 : Nat) : Int), ((x.length - 2 : Nat) : Int) - 1, digit⟩ ∧
      mantissa.toNat + 2 ^ 52 = magnitude (x.digits.drop (x.length - 2)) * 2 ^ (zeros - 11) := by
  have upper := headMantissa_spec top.small top.low top.high
  have quotient : magnitude (x.digits.drop (x.length - 2)) = head.toNat * 2 ^ 32 + digit.toNat := by
    rw [magnitude_drop_of_read read, show x.length - 2 + 1 = x.length - 1 by omega, top.magnitude_top]
    omega
  rw [quotient]
  exact padWhole_wide wide top.small _ upper

/-- The upper bits end inside the third digit. -/
theorem bigIntToNumber_third (top : Head x head zeros) (nonzero : x.isZero = false)
    (small : 32 * x.length - zeros ≤ 1024) (long : 3 ≤ x.length) (wide : 12 ≤ zeros) :
    ∃ p, Builds x (bigIntToNumber x) p ∧
      IsNearest scaled Binary64.infinity (magnitude x.digits * one) p := by
  have below := top.small
  obtain ⟨second, read⟩ := exists_digit (show x.length - 2 < x.digits.length by rw [length] at *; omega)
  obtain ⟨digit, read'⟩ := exists_digit (show x.length - 3 < x.digits.length by rw [length] at *; omega)
  obtain ⟨mantissa, padded, filled⟩ := padWhole_second top (by omega) (by omega) read
  rw [show x.length - 2 = x.length - 3 + 1 by omega] at filled
  refine bigIntToNumber_inside top small read' (by omega) (by omega) (by omega) second filled ?_
  have index : ((x.length - 2 : Nat) : Int) - 1 = ((x.length - 3 : Nat) : Int) := by omega
  rw [bigIntToNumber_eq top nonzero small (by omega) read, padded, index]

/-- Two digits with at most 53 bits. -/
theorem bigIntToNumber_two (top : Head x head zeros) (nonzero : x.isZero = false)
    (two : x.length = 2) (wide : 11 ≤ zeros) : Builds x (bigIntToNumber x)
      ((32 * x.length - zeros + 1021) * 2 ^ 52 +
        magnitude x.digits * 2 ^ (53 - (32 * x.length - zeros))) := by
  have below := top.small
  have small : 32 * x.length - zeros ≤ 1024 := by omega
  have power : (UInt64.ofNat (x.length * dateBits - zeros - 1)).toNat = 32 * x.length - zeros - 1 :=
    toNat_exponent small
  obtain ⟨second, read⟩ := exists_digit (show x.length - 2 < x.digits.length by rw [length] at *; omega)
  obtain ⟨mantissa, padded, filled⟩ := padWhole_second top (by omega) wide read
  have shift : 53 - (32 * x.length - zeros) = zeros - 11 := by omega
  rw [show x.length - 2 = 0 by omega, List.drop_zero, ← shift] at filled
  have high : magnitude x.digits * 2 ^ (53 - (32 * x.length - zeros)) < 2 ^ 53 := by
    have whole : 2 ^ 53 = 2 ^ (32 * x.length - zeros) * 2 ^ (53 - (32 * x.length - zeros)) := by
      rw [← Nat.pow_add, Nat.add_sub_cancel' (by omega)]
    rw [whole]
    exact Nat.mul_lt_mul_of_pos_right top.width.2 (Nat.two_pow_pos _)
  have built := calculateNumber_spec x.sign filled high
    (show (UInt64.ofNat (x.length * dateBits - zeros - 1)).toNat ≤ 1023 by omega)
  rw [show 32 * x.length - zeros + 1021 =
    (UInt64.ofNat (x.length * dateBits - zeros - 1)).toNat + 1022 by omega]
  refine ⟨_, ?_, built⟩
  rw [bigIntToNumber_eq top nonzero small (by omega) read, padded, padPart, if_neg (by simp only; omega),
    ok_bind, roundPadded]
  by_cases remain : zeros = 11
  · rw [if_neg (by simp only; omega), if_neg (by simp only; omega), if_pos (by simp only; omega)]
  · rw [if_pos (by simp only; omega)]

/-! ## The upper bits end with the second digit -/

/-- The state after the padding. -/
theorem bigIntToNumber_aligned (top : Head x head 11) (nonzero : x.isZero = false)
    (small : 32 * x.length - 11 ≤ 1024) (long : 2 ≤ x.length) :
    ∃ second mantissa, mantissa.toNat + 2 ^ 52 = magnitude (x.digits.drop (x.length - 2)) ∧
      bigIntToNumber x = roundPadded x (if x.sign then (1 : UInt64) <<< 63 else 0)
        (UInt64.ofNat (x.length * dateBits - 11 - 1))
        ⟨mantissa, 0, ((x.length - 2 : Nat) : Int) - 1, second⟩ := by
  obtain ⟨second, read⟩ := exists_digit (show x.length - 2 < x.digits.length by rw [length] at *; omega)
  obtain ⟨mantissa, padded, filled⟩ := padWhole_second top long (Nat.le_refl 11) read
  refine ⟨second, mantissa, by rw [filled, Nat.sub_self, Nat.pow_zero, Nat.mul_one], ?_⟩
  rw [bigIntToNumber_eq top nonzero small long read, padded, padPart, if_neg (by simp only; omega),
    ok_bind]
  rfl

/-- Three digits: the lowest one is ignored. -/
theorem bigIntToNumber_three (top : Head x head 11) (nonzero : x.isZero = false)
    (three : x.length = 3) : Builds x (bigIntToNumber x)
      ((32 * x.length - 11 + 1021) * 2 ^ 52 + magnitude x.digits / 2 ^ (32 * 0 + 32)) := by
  have small : 32 * x.length - 11 ≤ 1024 := by omega
  have power : (UInt64.ofNat (x.length * dateBits - 11 - 1)).toNat = 32 * x.length - 11 - 1 :=
    toNat_exponent small
  obtain ⟨second, mantissa, filled, run⟩ := bigIntToNumber_aligned top nonzero small (by omega)
  rw [show x.length - 2 = 1 by omega, ← magnitude_div] at filled
  have high : magnitude x.digits / 2 ^ (32 * 1) < 2 ^ 53 := by
    rw [Nat.div_lt_iff_lt_mul (Nat.two_pow_pos _), ← Nat.pow_add]
    have below := top.width.2
    rw [three] at below
    exact below
  have built := calculateNumber_spec x.sign filled high
    (show (UInt64.ofNat (x.length * dateBits - 11 - 1)).toNat ≤ 1023 by omega)
  rw [show 32 * x.length - 11 + 1021 =
    (UInt64.ofNat (x.length * dateBits - 11 - 1)).toNat + 1022 by omega]
  refine ⟨_, ?_, built⟩
  rw [run, roundPadded, if_neg (by simp only; omega), if_neg (by simp only; omega),
    if_pos (by simp only; omega)]

/-- More than three digits: the loop over the lower digits misses one. -/
theorem bigIntToNumber_more (top : Head x head 11) (nonzero : x.isZero = false)
    (small : 32 * x.length - 11 ≤ 1024) (more : 4 ≤ x.length) : Builds x (bigIntToNumber x)
      ((32 * x.length - 11 + 1021) * 2 ^ 52 + magnitude x.digits / 2 ^ (32 * (x.length - 3) + 32) +
        (roundsUp (2 ^ 31) (magnitude x.digits / 2 ^ (32 * (x.length - 3)) % 2 ^ 32)
          (magnitude x.digits / 2 ^ (32 * (x.length - 3) + 32))
          (decide (magnitude (x.digits.take (x.length - 4)) ≠ 0))).toNat) := by
  obtain ⟨second, mantissa, filled, run⟩ := bigIntToNumber_aligned top nonzero small (by omega)
  obtain ⟨digit, read⟩ := exists_digit (show x.length - 3 < x.digits.length by rw [length] at *; omega)
  have upper : mantissa.toNat + 2 ^ 52 = magnitude (x.digits.drop (x.length - 3)) / 2 ^ 32 := by
    rw [filled, magnitude_drop_of_read read, show x.length - 3 + 1 = x.length - 2 by omega,
      Nat.add_mul_div_left _ _ (Nat.two_pow_pos 32), Nat.div_eq_of_lt digit.toNat_lt, Nat.zero_add]
  have index : ((x.length - 2 : Nat) : Int) - 1 = ((x.length - 3 : Nat) : Int) := by omega
  have index' : ((x.length - 3 : Nat) : Int) - 1 = ((x.length - 4 : Nat) : Int) := by omega
  have inside : ((x.length - 4 : Nat) : Int).toNat ≤ x.digits.length := by
    rw [Int.toNat_natCast, length]
    omega
  have built := roundDigit_builds top read (by decide) (Nat.le_refl 32)
    (show 32 * x.length - 11 = 53 + (32 * (x.length - 3) + 32) by omega) small upper
    (toNat_exponent small) inside
  rw [Int.toNat_natCast] at built
  have rounded : bigIntToNumber x = roundDigit x (if x.sign then (1 : UInt64) <<< 63 else 0) mantissa
      (UInt64.ofNat (x.length * dateBits - 11 - 1)) digit 32 ((x.length - 4 : Nat) : Int) := by
    rw [run, index, roundPadded, if_neg (by simp only; omega), if_neg (by simp only; omega),
      if_neg (by simp only; omega)]
    simp only [Int.toNat_natCast, getDigit_eq read, ok_bind, index']
    rfl
  rw [rounded]
  exact built

/-! ## When the nearest double is built -/

/-- The upper 53 bits end with a digit, and rounding by the digits below goes wrong. Three digits: the lowest
    one asks for rounding up. More: the digit below is in the middle of its range and the mantissa even, so
    that the lower digits decide, but only the one that the loop misses is not zero. -/
def MissesDigit (x : BigInt) : Prop :=
  2 ^ 20 ≤ words.weightAt x.digits (x.length - 1) ∧ words.weightAt x.digits (x.length - 1) < 2 ^ 21 ∧
    ((x.length = 3 ∧ (2 ^ 31 < words.weightAt x.digits 0 ∨
        (words.weightAt x.digits 0 = 2 ^ 31 ∧ words.weightAt x.digits 1 % 2 = 1))) ∨
      (4 ≤ x.length ∧ x.length ≤ 32 ∧ words.weightAt x.digits (x.length - 3) = 2 ^ 31 ∧
        words.weightAt x.digits (x.length - 2) % 2 = 0 ∧ words.weightAt x.digits (x.length - 4) ≠ 0 ∧
        magnitude (x.digits.take (x.length - 4)) = 0))

instance (x : BigInt) : Decidable x.MissesDigit := by
  unfold MissesDigit
  infer_instance

theorem Head.zeros_eq_iff (top : Head x head zeros) :
    zeros = 11 ↔ 2 ^ 20 ≤ words.weightAt x.digits (x.length - 1) ∧
      words.weightAt x.digits (x.length - 1) < 2 ^ 21 := by
  have low := top.low
  have high := top.high
  rw [words.weightAt_eq top.read, words_weight]
  constructor
  · rintro rfl
    omega
  · rintro ⟨above, below⟩
    rcases Nat.lt_trichotomy zeros 11 with less | same | greater
    · have power : 2 ^ zeros ≤ 2 ^ 10 := Nat.pow_le_pow_right (by decide) (by omega)
      have := Nat.mul_le_mul_left head.toNat power
      omega
    · exact same
    · have power : 2 ^ 12 ≤ 2 ^ zeros := Nat.pow_le_pow_right (by decide) (by omega)
      have := Nat.mul_le_mul_left head.toNat power
      omega

theorem roundsUp_eq_iff {half rest q : Nat} (a b : Bool) :
    roundsUp half rest q a = roundsUp half rest q b ↔ ¬ (rest = half ∧ q % 2 = 0 ∧ a ≠ b) := by
  rw [Bool.eq_iff_iff, roundsUp_iff, roundsUp_iff]
  cases a <;> cases b <;> simp <;> omega

/-- The parity of the upper bits is that of their lowest digit. -/
theorem quotient_parity (read : x.digits[k]? = some digit) :
    magnitude x.digits / 2 ^ (32 * k) % 2 = words.weightAt x.digits k % 2 := by
  have parity := mod_of_read (t := 1) read (by decide)
  rw [words.weightAt_eq read, words_weight]
  exact parity

theorem weightAt_of_read (read : x.digits[k]? = some digit) :
    magnitude x.digits / 2 ^ (32 * k) % 2 ^ 32 = words.weightAt x.digits k := by
  rw [mod_of_read read (Nat.le_refl 32), words.weightAt_eq read, words_weight,
    Nat.mod_eq_of_lt digit.toNat_lt]

theorem aligned_three (top : Head x head 11) (three : x.length = 3) :
    IsNearest scaled Binary64.infinity (magnitude x.digits * one)
        ((32 * x.length - 11 + 1021) * 2 ^ 52 + magnitude x.digits / 2 ^ (32 * 0 + 32)) ↔
      ¬ MissesDigit x := by
  obtain ⟨lowest, read⟩ := exists_digit (show 0 < x.digits.length by rw [length] at three; omega)
  obtain ⟨second, read'⟩ := exists_digit (show 1 < x.digits.length by rw [length] at three; omega)
  have nearest := isNearest_of_take (k := 0) top (show 0 < 32 by decide)
    (by omega) (by omega) false
  rw [Bool.toNat_false, Nat.add_zero] at nearest
  have parity : magnitude x.digits / 2 ^ (32 * 0 + 32) % 2 = words.weightAt x.digits 1 % 2 :=
    quotient_parity read'
  have head21 := top.zeros_eq_iff.mp rfl
  rw [nearest, ← Bool.not_eq_true, roundsUp_iff, weightAt_of_read read, parity]
  have empty : decide (magnitude (x.digits.take 0) ≠ 0) = false := rfl
  simp only [three, Nat.reduceSub] at head21
  simp only [empty, Bool.false_eq_true, false_or, MissesDigit, three, Nat.reduceSub, head21, true_and,
    show ¬ 4 ≤ 3 by decide, false_and, or_false]

theorem aligned_more (top : Head x head 11) (more : 4 ≤ x.length) (short : x.length ≤ 32) :
    IsNearest scaled Binary64.infinity (magnitude x.digits * one)
        ((32 * x.length - 11 + 1021) * 2 ^ 52 + magnitude x.digits / 2 ^ (32 * (x.length - 3) + 32) +
          (roundsUp (2 ^ 31) (magnitude x.digits / 2 ^ (32 * (x.length - 3)) % 2 ^ 32)
            (magnitude x.digits / 2 ^ (32 * (x.length - 3) + 32))
            (decide (magnitude (x.digits.take (x.length - 4)) ≠ 0))).toNat) ↔
      ¬ MissesDigit x := by
  obtain ⟨second, read2⟩ := exists_digit (show x.length - 2 < x.digits.length by rw [length] at *; omega)
  obtain ⟨third, read3⟩ := exists_digit (show x.length - 3 < x.digits.length by rw [length] at *; omega)
  obtain ⟨missed, read4⟩ := exists_digit (show x.length - 4 < x.digits.length by rw [length] at *; omega)
  have parity : magnitude x.digits / 2 ^ (32 * (x.length - 3) + 32) % 2 =
      words.weightAt x.digits (x.length - 2) % 2 := by
    rw [show 32 * (x.length - 3) + 32 = 32 * (x.length - 2) by omega]
    exact quotient_parity read2
  have lower : magnitude (x.digits.take (x.length - 3)) =
      magnitude (x.digits.take (x.length - 4)) +
        (2 ^ 32) ^ (x.length - 4) * words.weightAt x.digits (x.length - 4) := by
    rw [words.weightAt_eq read4, show x.length - 3 = x.length - 4 + 1 by omega]
    exact words.value_take_succ read4
  have power : 0 < (2 ^ 32) ^ (x.length - 4) := words.base_pow_pos (x.length - 4)
  have head21 := top.zeros_eq_iff.mp rfl
  rw [isNearest_of_take top (show 0 < 32 by decide) (by omega) (by omega), roundsUp_eq_iff, parity,
    weightAt_of_read read3]
  have differ : decide (magnitude (x.digits.take (x.length - 3)) ≠ 0) ≠
      decide (magnitude (x.digits.take (x.length - 4)) ≠ 0) ↔
        words.weightAt x.digits (x.length - 4) ≠ 0 ∧ magnitude (x.digits.take (x.length - 4)) = 0 := by
    rw [ne_eq, decide_eq_decide, lower]
    rcases Nat.eq_zero_or_pos (words.weightAt x.digits (x.length - 4)) with zero | positive
    · rw [zero, Nat.mul_zero, Nat.add_zero]
      simp
    · have := Nat.mul_pos power positive
      omega
  rw [differ]
  simp only [MissesDigit, head21, true_and, more, short, show ¬ x.length = 3 by omega, false_and,
    false_or]

theorem isNearest_infinity (top : Head x head zeros) (large : 1024 < 32 * x.length - zeros) :
    IsNearest scaled Binary64.infinity (magnitude x.digits * one) Binary64.infinity := by
  refine isNearest_last scaled_strictMono ?_
  have last : Binary64.infinity = 2045 * 2 ^ 52 + 2 ^ 53 := by
    rw [Binary64.infinity]
    omega
  have power : 2 ^ 53 * 2 ^ 2045 = 2 ^ 1024 * one := by
    rw [one, ← Nat.pow_add, ← Nat.pow_add]
  have wide : 2 ^ 1024 * 2 ≤ 2 ^ (32 * x.length - zeros) := by
    rw [← Nat.pow_succ]
    exact Nat.pow_le_pow_right (by decide) large
  have low := top.width.1
  rw [last, scaled_normal 2045 (by decide) (Nat.le_refl _), power]
  exact Nat.mul_le_mul_right one (by omega)

/-- What `BigIntToNumber` builds, and when it is the nearest double. -/
theorem bigIntToNumber_builds (canonical : x.Canonical) (nonzero : x.digits ≠ [0]) :
    ∃ p, Builds x (bigIntToNumber x) p ∧
      (IsNearest scaled Binary64.infinity (magnitude x.digits * one) p ↔ ¬ MissesDigit x) := by
  obtain ⟨head, zeros, top⟩ := canonical.exists_head nonzero
  have notZero := isZero_eq_false_iff.mpr nonzero
  have below := top.small
  have positive := top.positive
  rcases Nat.lt_or_ge 1024 (32 * x.length - zeros) with large | small
  · refine ⟨_, bigIntToNumber_large top notZero large, iff_of_true (isNearest_infinity top large) ?_⟩
    rintro ⟨above, upper, misses⟩
    have aligned := top.zeros_eq_iff.mpr ⟨above, upper⟩
    rcases misses with ⟨three, -⟩ | ⟨-, short, -⟩
    · omega
    · omega
  obtain ⟨low, high⟩ := top.width
  by_cases single : x.length = 1
  · refine ⟨_, bigIntToNumber_single top notZero single,
      iff_of_true (isNearest_small (by omega) low high) ?_⟩
    rintro ⟨-, -, ⟨three, -⟩ | ⟨more, -⟩⟩
    · omega
    · omega
  by_cases narrow : zeros ≤ 10
  · obtain ⟨p, builds, nearest⟩ := bigIntToNumber_second top notZero small (by omega) narrow
    refine ⟨p, builds, iff_of_true nearest ?_⟩
    rintro ⟨above, upper, -⟩
    have aligned := top.zeros_eq_iff.mpr ⟨above, upper⟩
    omega
  by_cases two : x.length = 2
  · refine ⟨_, bigIntToNumber_two top notZero two (by omega),
      iff_of_true (isNearest_small (by omega) low high) ?_⟩
    rintro ⟨-, -, ⟨three, -⟩ | ⟨more, -⟩⟩
    · omega
    · omega
  by_cases aligned : zeros = 11
  · subst aligned
    by_cases three : x.length = 3
    · exact ⟨_, bigIntToNumber_three top notZero three, aligned_three top three⟩
    · exact ⟨_, bigIntToNumber_more top notZero small (by omega), aligned_more top (by omega) (by omega)⟩
  · obtain ⟨p, builds, nearest⟩ := bigIntToNumber_third top notZero small (by omega) (by omega)
    refine ⟨p, builds, iff_of_true nearest ?_⟩
    rintro ⟨above, upper, -⟩
    exact aligned (top.zeros_eq_iff.mpr ⟨above, upper⟩)

/-- The double that is built has the sign of the BigInt. -/
theorem nearestDouble_of_isDouble (canonical : x.Canonical) {p : Nat} {number : JSNumber}
    (built : IsDouble x.sign p number) : NearestDouble x.toInt number.getNumber ↔
      IsNearest scaled Binary64.infinity (magnitude x.digits * one) p := by
  obtain ⟨bits, rfl, sign, rfl⟩ := built
  have same : x.sign = decide (x.toInt < 0) := by
    rw [Bool.eq_iff_iff, canonical.sign_iff, decide_eq_true_iff]
  rw [NearestDouble, toInt_natAbs, JSNumber.getNumber, sign, ← same]
  exact and_iff_right rfl

end Cases

/-- Zero gives zero. -/
theorem nearestDouble_zero : NearestDouble 0 (JSNumber.int 0).getNumber := by
  refine ⟨by decide, ?_⟩
  rw [Int.natAbs_zero, Nat.zero_mul]
  exact isNearest_exact scaled_strictMono (Nat.zero_le _) rfl

/-- `BigIntToNumber` gives the nearest double unless it misses a digit. -/
theorem bigIntToNumber_nearest_iff (canonical : x.Canonical) :
    ∃ number, bigIntToNumber x = .ok number ∧
      (NearestDouble x.toInt number.getNumber ↔ ¬ MissesDigit x) := by
  by_cases zero : x.digits = [0]
  · refine ⟨.int 0, if_pos (isZero_iff.mpr zero), ?_⟩
    rw [canonical.toInt_eq_zero_iff.mpr zero]
    refine iff_of_true nearestDouble_zero ?_
    rintro ⟨above, -⟩
    rw [length, zero] at above
    exact absurd above (by decide)
  · obtain ⟨p, ⟨number, run, built⟩, nearest⟩ := bigIntToNumber_builds canonical zero
    exact ⟨number, run, (nearestDouble_of_isDouble canonical built).trans nearest⟩

/-- `2 ^ 54 - 1` is in the middle between two doubles, and the upper one is even. -/
theorem bigIntToNumber_nearest_iff_tie :
    bigIntToNumber ⟨false, [0xFFFFFFFF, 0x3FFFFF]⟩ = .ok (.double 0x4350000000000000) ∧
      NearestDouble (2 ^ 54 - 1) 0x4350000000000000 := by
  obtain ⟨number, run, nearest⟩ := bigIntToNumber_nearest_iff
    (show Canonical ⟨false, [0xFFFFFFFF, 0x3FFFFF]⟩ by decide)
  have value : bigIntToNumber ⟨false, [0xFFFFFFFF, 0x3FFFFF]⟩ = .ok (.double 0x4350000000000000) := by
    decide +kernel
  obtain rfl := Except.ok.inj (run.symm.trans value)
  exact ⟨value, nearest.mpr (by decide)⟩

/-- `2 ^ 84 + 2 ^ 32 - 1` is next to `2 ^ 84 + 2 ^ 32`, but its lowest digit is ignored. -/
theorem bigIntToNumber_ignores :
    Canonical ⟨false, [0xFFFFFFFF, 0, 0x100000]⟩ ∧
      bigIntToNumber ⟨false, [0xFFFFFFFF, 0, 0x100000]⟩ = .ok (.double 0x4530000000000000) ∧
      toInt ⟨false, [0xFFFFFFFF, 0, 0x100000]⟩ = 2 ^ 84 + 2 ^ 32 - 1 ∧
      ¬ NearestDouble (toInt ⟨false, [0xFFFFFFFF, 0, 0x100000]⟩) 0x4530000000000000 := by
  have canonical : Canonical ⟨false, [0xFFFFFFFF, 0, 0x100000]⟩ := by decide
  obtain ⟨p, ⟨number, run, built⟩, nearest⟩ := bigIntToNumber_builds canonical (by decide)
  have value : bigIntToNumber ⟨false, [0xFFFFFFFF, 0, 0x100000]⟩ =
      .ok (.double 0x4530000000000000) := by
    decide +kernel
  obtain rfl := Except.ok.inj (run.symm.trans value)
  refine ⟨canonical, value, by decide, fun near => ?_⟩
  exact nearest.mp ((nearestDouble_of_isDouble canonical built).mp near) (by decide)

end BigInt

end ArkRuntime
