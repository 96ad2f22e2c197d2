import ArkRuntime.BigInt.DigitDivision

/-!
# A round of the long division

`SpecialMultiplyAndSub` subtracts a multiple of the divisor inside the dividend, and `SpecialAdd` gives
the divisor back once where that was too much. A round of the loop of
`DivideAndRemainderWithBigintDivisor` keeps the dividend equal to the quotient so far times the
divisor plus the digits that are left, and brings these below the next power of the base.
-/

namespace ArkRuntime

namespace BigInt

variable {u v qv : List UInt32} {q : UInt32} {pos i n : Nat} {dir : Int}
  {helper : UInt32 → UInt32 → UInt32 → UInt32 × UInt32}

/-! ## `SpecialMultiplyAndSub` and `SpecialAdd` -/

/-- The digits below `i` and what is carried over are `q` times the digits of `v` below `i`. -/
structure ProductCarries (v : List UInt32) (q : UInt32) (n i : Nat) (s : Product) : Prop where
  length : s.digits.length = n
  carry : s.lastCarry.toNat ≤ 2
  value : magnitude (s.digits.take i) + (2 ^ 32) ^ i * (s.lastHigh.toNat + s.lastCarry.toNat) =
    q.toNat * magnitude (v.take i)

theorem productRound_spec {s : Product} (insideV : i < v.length) (inside : i < n)
    (before : ProductCarries v q n i s) :
    ∃ s', productRound v q i s = .ok s' ∧ ProductCarries v q n (i + 1) s' := by
  obtain ⟨len, carry, value⟩ := before
  obtain ⟨d, read⟩ := exists_digit insideV
  have product := mul_spec d q
  obtain ⟨sum, carry'⟩ := addHelper_pair (mul d q).2 s.lastHigh s.lastCarry carry
  set out := addHelper (addHelper (mul d q).2 s.lastHigh 0).1 s.lastCarry
    (addHelper (mul d q).2 s.lastHigh 0).2
  have inside' : i < s.digits.length := by omega
  refine ⟨⟨s.digits.set i out.1, out.2, (mul d q).1⟩, ?_, by simpa using len, carry', ?_⟩
  · simp only [productRound, getDigit_eq read, ok_bind, setDigit_of_lt _ inside', pure_eq_ok]
    rfl
  · rw [magnitude_take_set _ inside', magnitude_take_succ read]
    zify at value sum product ⊢
    linear_combination value + (2 ^ 32) ^ i * sum + (2 ^ 32) ^ i * product

/-- The digits of `u` with those of `v` below `i` added, or subtracted, from `pos` on. -/
structure Window (dir : Int) (u v : List UInt32) (pos i : Nat) (s : Carried) : Prop where
  length : s.digits.length = u.length
  rest : s.digits.drop (pos + i) = u.drop (pos + i)
  carry : s.carry.toNat ≤ 1
  value : (magnitude s.digits : Int) + dir * (2 ^ 32) ^ (pos + i) * s.carry.toNat =
    magnitude u + dir * (2 ^ 32) ^ pos * magnitude (v.take i)

theorem windowRound_spec (is : CarryHelper helper dir) {s : Carried} (insideV : i < v.length)
    (inside : pos + i < u.length) (before : Window dir u v pos i s) :
    ∃ s', windowRound helper v pos i s = .ok s' ∧ Window dir u v pos (i + 1) s' := by
  obtain ⟨len, rest, carry, value⟩ := before
  have inside' : pos + i < s.digits.length := by omega
  obtain ⟨old, read⟩ := exists_digit inside'
  obtain ⟨d, readV⟩ := exists_digit insideV
  obtain ⟨step, carry'⟩ := is.pair old d s.carry carry
  set out := helper (helper old d 0).1 s.carry (helper old d 0).2
  have replaced := magnitude_set out.1 read
  refine ⟨⟨s.digits.set (pos + i) out.1, out.2⟩, ?_, by simpa using len, ?_, carry', ?_⟩
  · simp only [windowRound, getDigit_eq read, getDigit_eq readV, ok_bind, setDigit_of_lt _ inside',
      pure_eq_ok]
    rfl
  · exact drop_succ_of_drop rest _
  · rw [magnitude_take_succ readV]
    zify at replaced
    push_cast
    linear_combination replaced + value + (2 ^ 32) ^ (pos + i) * step

theorem window_start (dir : Int) (u v : List UInt32) (pos : Nat) : Window dir u v pos 0 ⟨u, 0⟩ :=
  ⟨rfl, rfl, by simp, by simp⟩

theorem windowLoop_spec (u v : List UInt32) (pos : Nat) (is : CarryHelper helper dir)
    (room : pos + v.length ≤ u.length) :
    ∃ s, forRange (windowRound helper v pos) 0 v.length ⟨u, 0⟩ = .ok s ∧
      Window dir u v pos v.length s := by
  have loop := forRange_spec (I := Window dir u v pos) 0 v.length (window_start dir u v pos)
    fun i s _ below inv => windowRound_spec is (by omega) (by omega) inv
  rwa [Nat.zero_add] at loop

theorem productLoop_spec (q : UInt32) (len : qv.length = v.length + 1) :
    ∃ s, forRange (productRound v q) 0 v.length ⟨qv, 0, 0⟩ = .ok s ∧
      s.digits.length = v.length + 1 ∧
      magnitude (s.digits.set v.length (s.lastHigh + s.lastCarry)) = q.toNat * magnitude v := by
  have start : ProductCarries v q (v.length + 1) 0 ⟨qv, 0, 0⟩ := ⟨len, by simp, by simp⟩
  obtain ⟨s, ran, inv⟩ := forRange_spec (I := ProductCarries v q (v.length + 1)) 0 v.length start
    fun i s _ below inv => productRound_spec (by omega) (by omega) inv
  rw [Nat.zero_add] at inv
  obtain ⟨len', carry, value⟩ := inv
  rw [magnitude_take_length] at value
  refine ⟨s, ran, len', ?_⟩
  -- the product of a digit has one digit more
  have fits : s.lastHigh.toNat + s.lastCarry.toNat < 2 ^ 32 := by
    have bound : q.toNat * magnitude v < 2 ^ 32 * (2 ^ 32) ^ v.length :=
      Nat.mul_lt_mul'' q.toNat_lt (magnitude_lt v)
    have : (2 ^ 32) ^ v.length * (s.lastHigh.toNat + s.lastCarry.toNat) <
        (2 ^ 32) ^ v.length * 2 ^ 32 := by
      rw [Nat.mul_comm _ (2 ^ 32)]
      omega
    exact Nat.lt_of_mul_lt_mul_left this
  rw [magnitude_set_last _ len', UInt32.toNat_add, Nat.mod_eq_of_lt fits, value]

/-- The borrow of `SpecialMultiplyAndSub` as a number. -/
def borrowed (borrow : Bool) : Nat := if borrow then 1 else 0

theorem specialMultiplyAndSub_spec (q : UInt32) (len : qv.length = v.length + 1)
    (room : pos + v.length + 1 ≤ u.length) :
    ∃ u' qv' borrow, specialMultiplyAndSub u v q qv pos = .ok (u', qv', borrow) ∧
      u'.length = u.length ∧ qv'.length = v.length + 1 ∧
      u'.drop (pos + v.length + 1) = u.drop (pos + v.length + 1) ∧
      magnitude u' + (2 ^ 32) ^ pos * (q.toNat * magnitude v) =
        magnitude u + (2 ^ 32) ^ (pos + v.length + 1) * borrowed borrow := by
  obtain ⟨product, ran, lenProduct, value⟩ := productLoop_spec q len
  set qv' := product.digits.set v.length (product.lastHigh + product.lastCarry) with hqv
  have lenQv : qv'.length = v.length + 1 := by rw [hqv, List.length_set, lenProduct]
  obtain ⟨s, ran', window⟩ := windowLoop_spec u qv' pos subHelper_carryHelper
    (by omega)
  obtain ⟨len', rest, carry, difference⟩ := window
  rw [magnitude_take_length, value, lenQv, ← Nat.add_assoc] at difference
  rw [lenQv, ← Nat.add_assoc] at rest
  have carryEq : s.carry.toNat = borrowed (decide (s.carry > 0)) := by
    unfold borrowed
    rcases Nat.eq_zero_or_pos s.carry.toNat with zero | positive
    · have : s.carry = 0 := UInt32.toNat_inj.mp zero
      simp [this]
    · rw [decide_eq_true (by rw [gt_iff_lt, UInt32.lt_iff_toNat_lt]; exact positive), if_pos rfl]
      omega
  refine ⟨s.digits, qv', decide (s.carry > 0), ?_, len', lenQv, rest, ?_⟩
  · simp only [specialMultiplyAndSub, ran, ok_bind,
      setDigit_of_lt _ (show v.length < product.digits.length by omega), ← hqv, ran', pure_eq_ok]
  · rw [← carryEq]
    zify at difference ⊢
    linear_combination difference

theorem magnitude_split (digits : List UInt32) (i : Nat) :
    magnitude digits = magnitude (digits.take i) + (2 ^ 32) ^ i * magnitude (digits.drop i) :=
  words.value_split digits i

theorem magnitude_drop_eq_zero_iff (digits : List UInt32) (i : Nat) :
    magnitude (digits.drop i) = 0 ↔ magnitude digits < (2 ^ 32) ^ i := by
  have split := magnitude_split digits i
  have low := magnitude_take_lt digits i
  constructor
  · intro zero
    rw [zero, Nat.mul_zero] at split
    omega
  · intro below
    by_contra nonzero
    have : (2 ^ 32) ^ i * 1 ≤ (2 ^ 32) ^ i * magnitude (digits.drop i) :=
      Nat.mul_le_mul_left _ (Nat.pos_of_ne_zero nonzero)
    omega

/-- `v` is given back, and the borrow with it. -/
theorem addBack_borrow (q : UInt32) (room : i + v.length + 1 ≤ u.length)
    (below : magnitude u < (2 ^ 32) ^ (i + v.length + 1))
    (reaches : (2 ^ 32) ^ (i + v.length + 1) ≤ magnitude u + (2 ^ 32) ^ i * magnitude v) :
    ∃ u', addBack u v v.length i q true = .ok (u', q - 1) ∧ u'.length = u.length ∧
      magnitude u' + (2 ^ 32) ^ (i + v.length + 1) = magnitude u + (2 ^ 32) ^ i * magnitude v := by
  obtain ⟨s, ran, len, rest, carry, sum⟩ := windowLoop_spec u v i addHelper_carryHelper (by omega)
  have inside : i + v.length < s.digits.length := by omega
  obtain ⟨top, read⟩ := exists_digit inside
  have replaced := magnitude_set (top + s.carry) read
  rw [magnitude_take_length] at sum
  set out := s.digits.set (i + v.length) (top + s.carry) with hOut
  refine ⟨out, ?_, by rw [hOut, List.length_set, len], ?_⟩
  · simp only [addBack, if_true, specialAdd, ran, ok_bind, getDigit_eq read,
      setDigit_of_lt _ inside, pure_eq_ok, ← hOut]
  have outBelow : magnitude out < (2 ^ 32) ^ (i + v.length + 1) := by
    rw [← magnitude_drop_eq_zero_iff] at below ⊢
    rw [hOut, drop_succ_of_drop rest, below]
  -- the carry out of the top digit is the borrow
  have carryOut : (top + s.carry).toNat = top.toNat + s.carry.toNat ∨
      (top + s.carry).toNat + 2 ^ 32 = top.toNat + s.carry.toNat := by
    have := top.toNat_lt
    rw [UInt32.toNat_add]
    omega
  rcases carryOut with noCarry | carried
  · exfalso
    rw [noCarry] at replaced
    zify at replaced sum reaches outBelow
    linarith
  · zify at replaced sum carried ⊢
    linear_combination replaced + sum + (2 ^ 32) ^ (i + v.length) * carried

/-! ## The quotient digit -/

variable {k : Nat} {v₁ v₂ a b c : UInt32}

/-- The digits of `xs` below `k`, and two digits above them. -/
theorem magnitude_take_two {xs : List UInt32} (first : xs[k + 1]? = some a)
    (second : xs[k]? = some b) :
    magnitude (xs.take (k + 2)) =
      (a.toNat * 2 ^ 32 + b.toNat) * (2 ^ 32) ^ k + magnitude (xs.take k) := by
  rw [magnitude_take_succ first, magnitude_take_succ second]
  ring

/-- The leading digits of `u` from `i` on, over those of `v`. -/
def digitStep (u v : List UInt32) (k i : Nat) (v₁ v₂ a b c : UInt32) (positive : 0 < v₁.toNat) :
    QuotientStep where
  base := 2 ^ 32
  weight := (2 ^ 32) ^ k
  v₁ := v₁.toNat
  v₂ := v₂.toNat
  vLow := magnitude (v.take k)
  u := a.toNat * 2 ^ 32 + b.toNat
  u₂ := c.toNat
  uLow := magnitude ((u.drop i).take k)
  v₁_pos := positive
  v₂_lt := v₂.toNat_lt
  u₂_lt := c.toNat_lt
  vLow_lt := magnitude_take_lt v k
  uLow_lt := magnitude_take_lt (u.drop i) k

theorem digitStep_divisor (positive : 0 < v₁.toNat) (len : v.length = k + 2)
    (first : v[k + 1]? = some v₁) (second : v[k]? = some v₂) :
    (digitStep u v k i v₁ v₂ a b c positive).divisor = magnitude v := by
  rw [← magnitude_take_length, len, magnitude_take_two first second]
  rfl

theorem digitStep_dividend (positive : 0 < v₁.toNat)
    (below : magnitude u < (2 ^ 32) ^ (i + (k + 3))) (first : u[i + (k + 2)]? = some a)
    (second : u[i + (k + 1)]? = some b) (third : u[i + k]? = some c) :
    (digitStep u v k i v₁ v₂ a b c positive).dividend = magnitude (u.drop i) := by
  have all := magnitude_split (u.drop i) (k + 3)
  rw [List.drop_drop, (magnitude_drop_eq_zero_iff u _).mpr below, Nat.mul_zero, Nat.add_zero] at all
  rw [← List.getElem?_drop] at first second third
  rw [all, magnitude_take_two first second, magnitude_take_succ third]
  simp only [QuotientStep.dividend, digitStep]
  ring

/-- `q` is the digit of the quotient at `i`, or one more. -/
structure NearDigit (u v : List UInt32) (i : Nat) (q : UInt32) : Prop where
  upper : magnitude (u.drop i) < (q.toNat + 1) * magnitude v
  lower : q.toNat * magnitude v < magnitude (u.drop i) + magnitude v

theorem estimateDigit_spec (len : v.length = k + 2) (first : v[k + 1]? = some v₁)
    (normalized : 2 ^ 31 ≤ v₁.toNat) (room : i + k + 2 < u.length)
    (below : magnitude u < magnitude v * (2 ^ 32) ^ (i + 1)) :
    ∃ q, estimateDigit u v (k + 2) v₁ i = .ok q ∧ NearDigit u v i q := by
  have positive : 0 < v₁.toNat := by omega
  obtain ⟨v₂, second⟩ := exists_digit (show k < v.length by omega)
  obtain ⟨a, readA⟩ := exists_digit (show i + (k + 2) < u.length by omega)
  obtain ⟨b, readB⟩ := exists_digit (show i + (k + 1) < u.length by omega)
  obtain ⟨c, readC⟩ := exists_digit (show i + k < u.length by omega)
  have belowPow : magnitude u < (2 ^ 32) ^ (i + (k + 3)) := by
    calc magnitude u < magnitude v * (2 ^ 32) ^ (i + 1) := below
      _ ≤ (2 ^ 32) ^ (k + 2) * (2 ^ 32) ^ (i + 1) := by
          apply Nat.mul_le_mul_right
          rw [← len]
          exact Nat.le_of_lt (magnitude_lt v)
      _ = (2 ^ 32) ^ (i + (k + 3)) := by ring
  set S := digitStep u v k i v₁ v₂ a b c positive with hS
  have divisor : S.divisor = magnitude v := digitStep_divisor positive len first second
  have dividend : S.dividend = magnitude (u.drop i) :=
    digitStep_dividend positive belowPow readA readB readC
  have fits : S.dividend < S.base * S.divisor := by
    rw [dividend, divisor]
    change words.value (u.drop i) < _
    rw [← words.value_div_pow]
    apply Nat.div_lt_of_lt_mul
    calc magnitude u < magnitude v * (2 ^ 32) ^ (i + 1) := below
      _ = (2 ^ 32) ^ i * (2 ^ 32 * magnitude v) := by ring
  have near : ∀ q : UInt32, S.Near q.toNat → NearDigit u v i q := fun q near =>
    ⟨by rw [← dividend, ← divisor]; exact near.upper, by rw [← dividend, ← divisor]; exact near.lower⟩
  have uRead : getDigit u (i + (k + 2)) = .ok a := getDigit_eq readA
  have uNext : getDigit u (i + (k + 2) - 1) = .ok b := getDigit_eq readB
  have uNextNext : getDigit u (i + (k + 2) - 2) = .ok c := getDigit_eq readC
  have vNext : getDigit v (k + 2 - 2) = .ok v₂ := getDigit_eq second
  by_cases same : v₁ = a
  · obtain ⟨result, ran⟩ := divideAndRemainder_returns a b normalized
    refine ⟨0xFFFFFFFF, ?_, near _ ?_⟩
    · simp only [estimateDigit, uRead, uNext, ran, ok_bind, if_pos same, pure_eq_ok]
    · apply S.near_pred_base _ _ _ fits
      · show v₁.toNat * 2 ^ 32 ≤ a.toNat * 2 ^ 32 + b.toNat
        rw [same]
        omega
      · show 2 ^ 32 ≤ 2 * v₁.toNat
        omega
      · show 2 ≤ 2 ^ 32
        norm_num
  · -- the leading digit of `u` is below that of `v`
    have less : a.toNat < v₁.toNat := by
      have le : a.toNat ≤ v₁.toNat := QuotientStep.le_of_fits (S := S) rfl fits
      exact Nat.lt_of_le_of_ne le fun eq => same (UInt32.toNat_inj.mp eq.symm)
    have nonzero : v₁ ≠ 0 := fun zero => by simp [zero] at positive
    obtain ⟨q, r, ran, quotient, rest⟩ := divideAndRemainder_spec b nonzero less
    have estimate : S.Estimate q.toNat r.toNat := by
      rw [quotient, rest]
      exact S.estimate_div
    obtain ⟨q', ran', near'⟩ := improveAccuracy_spec
      (⟨rfl, rfl, rfl, rfl⟩ : LeadingDigits S v₁ v₂ c) estimate
    refine ⟨q', ?_, near q' near'⟩
    simp only [estimateDigit, uRead, uNext, ran, ok_bind, if_neg same, vNext, uNextNext, ran']

/-! ## A round -/

theorem magnitude_lt_of_drop_lt {w : Nat} (below : magnitude (u.drop i) < w) :
    magnitude u < (2 ^ 32) ^ i * w := by
  have split := magnitude_split u i
  have low := magnitude_take_lt u i
  have : (2 ^ 32) ^ i * (magnitude (u.drop i) + 1) ≤ (2 ^ 32) ^ i * w := Nat.mul_le_mul_left _ below
  rw [Nat.mul_add, Nat.mul_one] at this
  omega

theorem NearDigit.le (near : NearDigit u v i q) :
    (2 ^ 32) ^ i * (q.toNat * magnitude v) ≤ magnitude u + (2 ^ 32) ^ i * magnitude v := by
  have split := magnitude_split u i
  have : (2 ^ 32) ^ i * (q.toNat * magnitude v) ≤
      (2 ^ 32) ^ i * (magnitude (u.drop i) + magnitude v) :=
    Nat.mul_le_mul_left _ (Nat.le_of_lt near.lower)
  rw [Nat.mul_add] at this
  omega

theorem NearDigit.lt (near : NearDigit u v i q) :
    magnitude u < (2 ^ 32) ^ i * (q.toNat * magnitude v) + (2 ^ 32) ^ i * magnitude v := by
  have below := magnitude_lt_of_drop_lt near.upper
  rwa [Nat.add_mul, Nat.one_mul, Nat.mul_add] at below

/-- The tried digit is subtracted, and lowered where that was too much. -/
theorem subtractDivisor_spec (lenQv : qv.length = v.length + 1) (room : i + v.length + 1 ≤ u.length)
    (below : magnitude u < (2 ^ 32) ^ (i + v.length + 1)) (near : NearDigit u v i q) :
    ∃ u' qv' borrow u'' q', specialMultiplyAndSub u v q qv i = .ok (u', qv', borrow) ∧
      addBack u' v v.length i q borrow = .ok (u'', q') ∧ u''.length = u.length ∧
      qv'.length = v.length + 1 ∧
      magnitude u'' + (2 ^ 32) ^ i * (q'.toNat * magnitude v) = magnitude u ∧
      magnitude u'' < (2 ^ 32) ^ i * magnitude v := by
  obtain ⟨u', qv', borrow, ran, len, lenQv', rest, value⟩ := specialMultiplyAndSub_spec q lenQv room
  have upper := near.lt
  rcases borrow with _ | _
  · simp only [borrowed, Bool.false_eq_true, if_false, Nat.mul_zero, Nat.add_zero] at value
    exact ⟨u', qv', false, u', q, ran, rfl, len, lenQv', value, by omega⟩
  · simp only [borrowed, if_true, Nat.mul_one] at value
    have lower := near.le
    have below' : magnitude u' < (2 ^ 32) ^ (i + v.length + 1) := by
      rw [← magnitude_drop_eq_zero_iff] at below ⊢
      rw [rest, below]
    obtain ⟨u'', ran', len', value'⟩ := addBack_borrow q (by omega) below' (by omega)
    have positive : 0 < q.toNat := by
      apply Nat.pos_of_ne_zero
      intro zero
      rw [zero, Nat.zero_mul, Nat.mul_zero] at value
      omega
    have lowered : (q - 1).toNat = q.toNat - 1 := by
      have := q.toNat_lt
      rw [UInt32.toNat_sub]
      simp only [UInt32.reduceToNat]
      omega
    have product : (2 ^ 32) ^ i * (q.toNat * magnitude v) =
        (2 ^ 32) ^ i * ((q - 1).toNat * magnitude v) + (2 ^ 32) ^ i * magnitude v := by
      rw [lowered, ← Nat.mul_add, ← Nat.succ_mul, Nat.succ_eq_add_one, Nat.sub_add_cancel positive]
    exact ⟨u', qv', true, u'', q - 1, ran, ran', by omega, lenQv', by omega, by omega⟩

/-- The quotient digits, where the quotient is asked for: those below `i` are still zero. -/
def QuotientDigits (quotient : Option (List UInt32)) (len i value : Nat) : Prop :=
  ∀ digits, quotient = some digits →
    digits.length = len ∧ magnitude digits = value ∧ magnitude (digits.take i) = 0

theorem storeQuotient_spec {quotient : Option (List UInt32)} {len value : Nat} (q : UInt32)
    (inside : i < len) (before : QuotientDigits quotient len (i + 1) value) :
    ∃ quotient', storeQuotient quotient i q = .ok quotient' ∧
      quotient'.isSome = quotient.isSome ∧
      QuotientDigits quotient' len i (value + (2 ^ 32) ^ i * q.toNat) := by
  rcases quotient with _ | digits
  · exact ⟨none, rfl, rfl, fun _ no => by cases no⟩
  · obtain ⟨length, sum, zeros⟩ := before digits rfl
    have inside' : i < digits.length := by omega
    obtain ⟨old, read⟩ := exists_digit inside'
    have replaced := magnitude_set q read
    rw [magnitude_take_succ read] at zeros
    refine ⟨some (digits.set i q), ?_, rfl, ?_⟩
    · simp only [storeQuotient, setDigit_of_lt _ inside', ok_bind, pure_eq_ok]
    · intro digits' eq
      cases eq
      refine ⟨by simpa using length, by omega, ?_⟩
      rw [List.take_set_of_le (Nat.le_refl i)]
      omega

/-- The state of the long division of `total` before the digit `i - 1` of the quotient. -/
structure Divided (v : List UInt32) (total m i : Nat) (asked : Bool) (s : LongDivision) : Prop where
  lengthU : s.u.length = v.length + m
  lengthQv : s.qv.length = v.length + 1
  below : magnitude s.u < magnitude v * (2 ^ 32) ^ i
  asked : s.quotient.isSome = asked
  value : ∃ quotient, total = quotient * magnitude v + magnitude s.u ∧
    QuotientDigits s.quotient m i quotient

theorem longDivisionRound_spec {total m : Nat} {asked : Bool} {s : LongDivision}
    (len : v.length = k + 2) (first : v[k + 1]? = some v₁) (normalized : 2 ^ 31 ≤ v₁.toNat)
    (inside : i < m) (before : Divided v total m (i + 1) asked s) :
    ∃ s', longDivisionRound v v.length v₁ i s = .ok s' ∧ Divided v total m i asked s' := by
  obtain ⟨lenU, lenQv, below, isAsked, Q, sum, digits⟩ := before
  obtain ⟨q, ran, near⟩ := estimateDigit_spec (i := i) (u := s.u) len first normalized (by omega)
    below
  have belowPow : magnitude s.u < (2 ^ 32) ^ (i + v.length + 1) := by
    calc magnitude s.u < magnitude v * (2 ^ 32) ^ (i + 1) := below
      _ ≤ (2 ^ 32) ^ v.length * (2 ^ 32) ^ (i + 1) :=
          Nat.mul_le_mul_right _ (Nat.le_of_lt (magnitude_lt v))
      _ = (2 ^ 32) ^ (i + v.length + 1) := by ring
  obtain ⟨u', qv', borrow, u'', q', ran1, ran2, lenU', lenQv', value, below'⟩ :=
    subtractDivisor_spec lenQv (by omega) belowPow near
  obtain ⟨quotient', stored, isSome, digits'⟩ := storeQuotient_spec q' inside digits
  refine ⟨⟨u'', qv', quotient'⟩, ?_, by simpa [lenU] using lenU', lenQv', ?_,
    by simpa [isAsked] using isSome, Q + (2 ^ 32) ^ i * q'.toNat, ?_, digits'⟩
  · rw [← len] at ran
    simp only [longDivisionRound, ran, ran1, ran2, stored, ok_bind, pure_eq_ok]
  · rwa [Nat.mul_comm]
  · simp only
    rw [sum]
    zify at value ⊢
    linear_combination -value

end BigInt

end ArkRuntime
