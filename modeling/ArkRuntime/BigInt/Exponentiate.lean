import ArkRuntime.BigInt.Power
import Mathlib.Data.Nat.Digits.Lemmas

/-!
# The errors of `Exponentiate`

`Multiply` asks for as many digits as its operands have together, one more than some products need. A
square that is refused has no BigInt either; the last product of the loop may be refused although it has
one.
-/

namespace ArkRuntime

namespace BigInt

variable {x base exponent r : BigInt} {N e j k v w : Nat} {b : Int} {s s' : Power}

/-! ## The number of digits -/

/-- The digits that a magnitude needs; none for zero. -/
def digitCount (v : Nat) : Nat := (Nat.digits (2 ^ 32) v).length

/-- A BigInt of at most `MAXSIZE` digits has the value. -/
def Representable (v : Int) : Prop := v.natAbs < (2 ^ 32) ^ maxSize

theorem digitCount_le_iff : digitCount v ≤ k ↔ v < (2 ^ 32) ^ k :=
  Nat.digits_length_le_iff (by norm_num) v

theorem lt_digitCount_iff : k < digitCount v ↔ (2 ^ 32) ^ k ≤ v :=
  Nat.lt_digits_length_iff (by norm_num) v

theorem digitCount_mono (le : v ≤ w) : digitCount v ≤ digitCount w :=
  digitCount_le_iff.mpr (Nat.lt_of_le_of_lt le (digitCount_le_iff.mp (Nat.le_refl _)))

theorem representable_iff (v : Int) : Representable v ↔ digitCount v.natAbs ≤ maxSize :=
  digitCount_le_iff.symm

theorem digitCount_mul (positiveV : 0 < v) (positiveW : 0 < w) :
    digitCount v + digitCount w ≤ digitCount (v * w) + 1 := by
  have several {u : Nat} (positive : 0 < u) : 0 < digitCount u :=
    lt_digitCount_iff.mpr (by rw [pow_zero]; exact positive)
  have low {u : Nat} (positive : 0 < u) : (2 ^ 32) ^ (digitCount u - 1) ≤ u := by
    have := several positive
    exact lt_digitCount_iff.mp (by omega)
  have product : (2 ^ 32) ^ (digitCount v - 1 + (digitCount w - 1)) ≤ v * w := by
    rw [Nat.pow_add]
    exact Nat.mul_le_mul (low positiveV) (low positiveW)
  have := lt_digitCount_iff.mpr product
  have := several positiveV
  have := several positiveW
  omega

theorem Canonical.length_eq (canonical : x.Canonical) (nonzero : x.digits ≠ [0]) :
    x.length = digitCount x.toInt.natAbs := by
  rw [toInt_natAbs]
  have low := lt_digitCount_iff.mpr (canonical.pow_le_magnitude nonzero)
  have high := digitCount_le_iff.mpr (magnitude_lt x.digits)
  have positive := canonical.positive
  unfold length at low positive ⊢
  omega

/-- A square that `Multiply` refuses has no BigInt. -/
theorem square_refused (positive : 0 < v) (refused : maxSize < digitCount v + digitCount v) :
    maxSize < digitCount (v * v) := by
  have := digitCount_mul positive positive
  rw [maxSize_eq] at refused ⊢
  omega

/-! ## The loop -/

/-- The products that the loop has made up to the power `j` of two had room. -/
def Roomy (N e j : Nat) : Prop :=
  ∀ i ≤ j, e.testBit i = true → e % 2 ^ i ≠ 0 →
    digitCount (N ^ (e % 2 ^ i)) + digitCount (N ^ 2 ^ i) ≤ maxSize

/-- The loop after the square for the bit `j` of the exponent. -/
structure PowerAt (b : Int) (e j : Nat) (s : Power) : Prop where
  expValue : s.expValue.toNat = e / 2 ^ (j + 1)
  temp : s.temp.Canonical ∧ s.temp.toInt = b ^ 2 ^ j
  none : e % 2 ^ (j + 1) = 0 → s.result = none
  some : e % 2 ^ (j + 1) ≠ 0 → ∃ r, s.result = some r ∧ r.Canonical ∧ r.toInt = b ^ (e % 2 ^ (j + 1))
  roomy : Roomy b.natAbs e j

/-- A product of the loop is refused. -/
inductive Refused (N e : Nat) : Prop
  | square {j : Nat} : 2 ^ (j + 1) ≤ e →
      maxSize < digitCount (N ^ 2 ^ j) + digitCount (N ^ 2 ^ j) → Refused N e
  | product {j : Nat} : e.testBit j = true → e % 2 ^ j ≠ 0 →
      maxSize < digitCount (N ^ (e % 2 ^ j)) + digitCount (N ^ 2 ^ j) → Refused N e

theorem isZero_of_pow {n : Nat} (nonzero : b ≠ 0) (canonical : x.Canonical) (value : x.toInt = b ^ n) :
    x.isZero = false := by
  rw [isZero_eq_false_iff]
  intro zero
  rw [canonical.toInt_eq_zero_iff.mpr zero] at value
  exact absurd value.symm (pow_ne_zero n nonzero)

theorem length_of_pow {n : Nat} (nonzero : b ≠ 0) (canonical : x.Canonical) (value : x.toInt = b ^ n) :
    x.length = digitCount (b.natAbs ^ n) := by
  have notZero := isZero_eq_false_iff.mp (isZero_of_pow nonzero canonical value)
  rw [canonical.length_eq notZero, value, Int.natAbs_pow]

theorem testBit_iff_odd (e : UInt32) (same : e.toNat = N / 2 ^ j) :
    e &&& 1 ≠ 0 ↔ N.testBit j = true := by
  have odd := odd_iff e
  rw [same] at odd
  rw [Nat.testBit_eq_decide_div_mod_eq, ← odd]
  simp

theorem toNat_half (e : UInt32) : (e >>> 1).toNat = e.toNat / 2 := by
  rw [UInt32.toNat_shiftRight]
  rfl

/-- The exponent up to the next bit. -/
theorem mod_next (e j : Nat) : e % 2 ^ (j + 1) = e % 2 ^ j + if e.testBit j then 2 ^ j else 0 := by
  rw [Nat.mod_pow_succ, Nat.testBit_eq_decide_div_mod_eq]
  rcases Nat.mod_two_eq_zero_or_one (e / 2 ^ j) with even | odd
  · simp [even]
  · simp [odd]

theorem Roomy.succ (before : Roomy N e j) (next : e.testBit (j + 1) = true → e % 2 ^ (j + 1) ≠ 0 →
    digitCount (N ^ (e % 2 ^ (j + 1))) + digitCount (N ^ 2 ^ (j + 1)) ≤ maxSize) : Roomy N e (j + 1) := by
  intro i le
  rcases Nat.le_succ_iff.mp le with below | rfl
  · exact before i below
  · exact next

/-- The rest of a round, where the square is `temp`. -/
theorem timesTemp_spec {temp : BigInt} (nonzero : b ≠ 0) (before : PowerAt b e j s)
    (canonical : temp.Canonical) (value : temp.toInt = b ^ 2 ^ (j + 1))
    (odd : e.testBit (j + 1) = true) :
    (∃ r, timesTemp s.result temp = .ok r ∧ r.Canonical ∧ r.toInt = b ^ (e % 2 ^ (j + 2)) ∧
      Roomy b.natAbs e (j + 1)) ∨
      (timesTemp s.result temp = .error sizeExceeded ∧ Refused b.natAbs e) := by
  have next := mod_next e (j + 1)
  rw [if_pos odd] at next
  by_cases first : e % 2 ^ (j + 1) = 0
  · rw [first, Nat.zero_add] at next
    refine .inl ⟨temp, ?_, canonical, by rw [next, value], before.roomy.succ fun _ some' => ?_⟩
    · rw [before.none first]
      rfl
    · exact absurd first some'
  · obtain ⟨r, result, canonicalR, valueR⟩ := before.some first
    have lengthR := length_of_pow nonzero canonicalR valueR
    have lengthT := length_of_pow nonzero canonical value
    rw [result]
    rcases multiply_cases canonicalR canonical (isZero_of_pow nonzero canonicalR valueR)
        (isZero_of_pow nonzero canonical value) with ⟨large, failed⟩ | ⟨small, r', ran, canonical', value'⟩
    · rw [lengthR, lengthT] at large
      exact .inr ⟨failed, .product odd first large⟩
    · rw [lengthR, lengthT] at small
      refine .inl ⟨r', ran, canonical', ?_, before.roomy.succ fun _ _ => small⟩
      calc r'.toInt = b ^ (e % 2 ^ (j + 1)) * b ^ 2 ^ (j + 1) := by rw [value', valueR, value]
        _ = b ^ (e % 2 ^ (j + 1) + 2 ^ (j + 1)) := (pow_add _ _ _).symm
        _ = b ^ (e % 2 ^ (j + 2)) := by rw [next]

theorem powerRound_spec (nonzero : b ≠ 0) (before : PowerAt b e j s) (more : s.expValue ≠ 0) :
    (∃ s', powerRound s = .ok s' ∧ PowerAt b e (j + 1) s') ∨
      (powerRound s = .error sizeExceeded ∧ Refused b.natAbs e) := by
  obtain ⟨canonical, value⟩ := before.temp
  have length := length_of_pow nonzero canonical value
  have isZero := isZero_of_pow nonzero canonical value
  have bit := testBit_iff_odd s.expValue before.expValue
  have half : (s.expValue >>> 1).toNat = e / 2 ^ (j + 1 + 1) := by
    rw [toNat_half, before.expValue, Nat.div_div_eq_div_mul, ← Nat.pow_succ]
  have next := mod_next e (j + 1)
  rw [powerRound]
  rcases multiply_cases canonical canonical isZero isZero with
    ⟨large, failed⟩ | ⟨-, temp, ran, canonical', value'⟩
  · have reached : 2 ^ (j + 1) ≤ e := by
      by_contra below
      have zero := before.expValue
      rw [Nat.div_eq_of_lt (Nat.lt_of_not_le below)] at zero
      exact more (UInt32.toNat_inj.mp zero)
    rw [length] at large
    exact .inr ⟨by rw [failed]; rfl, .square reached large⟩
  · have value' : temp.toInt = b ^ 2 ^ (j + 1) := by rw [value', value, ← pow_add, Nat.pow_succ, Nat.mul_two]
    rw [ran, ok_bind]
    by_cases odd : e.testBit (j + 1) = true
    · rw [if_pos (bit.mpr odd)]
      rw [if_pos odd] at next
      have positive := Nat.two_pow_pos (j + 1)
      rcases timesTemp_spec nonzero before canonical' value' odd with
        ⟨r, ranR, canonicalR, valueR, roomy⟩ | ⟨failed, refused⟩
      · refine .inl ⟨_, by rw [ranR]; rfl, half, ⟨canonical', value'⟩, fun zero => ?_, fun _ => ?_, roomy⟩
        · omega
        · exact ⟨r, rfl, canonicalR, valueR⟩
      · exact .inr ⟨by rw [failed]; rfl, refused⟩
    · rw [if_neg (bit.not.mpr odd)]
      have next : e % 2 ^ (j + 2) = e % 2 ^ (j + 1) := by rw [next, if_neg odd, Nat.add_zero]
      refine .inl ⟨_, rfl, half, ⟨canonical', value'⟩, fun zero => ?_, fun some' => ?_,
        before.roomy.succ fun also => absurd also odd⟩
      · exact before.none (next.symm.trans zero)
      · rw [next] at some' ⊢
        exact before.some some'

/-- The loop ends with the power, or a product is refused. -/
theorem powerLoop_spec (nonzero : b ≠ 0) : ∀ {fuel j : Nat} {s : Power}, PowerAt b e j s →
    s.expValue.toNat < 2 ^ fuel →
    (∃ s' j', whileLoop .unfinished (fun s => s.expValue != 0) powerRound (fuel + 1) s = .ok s' ∧
      PowerAt b e j' s' ∧ s'.expValue = 0) ∨
      (whileLoop .unfinished (fun s => s.expValue != 0) powerRound (fuel + 1) s = .error sizeExceeded ∧
        Refused b.natAbs e) := by
  intro fuel
  induction fuel with
  | zero =>
    intro j s before small
    have done : s.expValue = 0 := UInt32.toNat_inj.mp (by simpa using small)
    exact .inl ⟨s, j, by rw [whileLoop, done]; rfl, before, done⟩
  | succ fuel ih =>
    intro j s before small
    rw [whileLoop]
    by_cases done : s.expValue = 0
    · exact .inl ⟨s, j, by rw [done]; rfl, before, done⟩
    · rw [if_pos (bne_iff_ne.mpr done)]
      rcases powerRound_spec nonzero before done with ⟨s', ran, after⟩ | ⟨failed, refused⟩
      · rw [ran]
        refine ih after ?_
        have half := after.expValue
        rw [Nat.pow_succ, ← Nat.div_div_eq_div_mul, ← before.expValue] at half
        rw [Nat.pow_succ] at small
        omega
      · rw [failed]
        exact .inr ⟨rfl, refused⟩

/-! ## The last product -/

/-- The exponent without its highest bit. -/
def restOf (e : Nat) : Nat := e % 2 ^ e.log2

/-- `MAXSIZE` digits are room for the product of the powers for the highest bit of the exponent and for
    the others. -/
def LastProductFits (N e : Nat) : Prop :=
  N ≤ 2 ∨ restOf e = 0 ∨ digitCount (N ^ restOf e) + digitCount (N ^ 2 ^ e.log2) ≤ maxSize

/-- Only the last product is refused although the power has a BigInt. -/
theorem Refused.cases (refused : Refused N e) (positive : 0 < N) :
    maxSize < digitCount (N ^ e) ∨
      restOf e ≠ 0 ∧ maxSize < digitCount (N ^ restOf e) + digitCount (N ^ 2 ^ e.log2) := by
  have square {j : Nat} (reached : 2 ^ (j + 1) ≤ e)
      (large : maxSize < digitCount (N ^ 2 ^ j) + digitCount (N ^ 2 ^ j)) :
      maxSize < digitCount (N ^ e) := by
    have next : N ^ 2 ^ j * N ^ 2 ^ j = N ^ 2 ^ (j + 1) := by
      rw [← pow_add, Nat.pow_succ, Nat.mul_two]
    have product := square_refused (Nat.pow_pos positive) large
    rw [next] at product
    exact Nat.lt_of_lt_of_le product (digitCount_mono (Nat.pow_le_pow_right positive reached))
  cases refused with
  | square reached large => exact .inl (square reached large)
  | @product j odd some' large =>
    have nonzero : e ≠ 0 := by
      rintro rfl
      simp at odd
    have le : j ≤ e.log2 := (Nat.le_log2 nonzero).mpr (Nat.ge_two_pow_of_testBit odd)
    rcases Nat.eq_or_lt_of_le le with rfl | below
    · exact .inr ⟨some', large⟩
    · have reached : 2 ^ (j + 1) ≤ e := (Nat.le_log2 nonzero).mp below
      have smaller : digitCount (N ^ (e % 2 ^ j)) ≤ digitCount (N ^ 2 ^ j) :=
        digitCount_mono (Nat.pow_le_pow_right positive (Nat.le_of_lt (Nat.mod_lt _ (Nat.two_pow_pos j))))
      exact .inl (square reached (by omega))

/-- The loop returns the power, or refuses a product. -/
theorem powerLoop_cases {base : BigInt} {d : UInt32} (canonical : base.Canonical)
    (nonzero : base.toInt ≠ 0) (some' : d ≠ 0) :
    ∃ result : Except BigIntFault BigInt,
      (do
        let power ← whileLoop .unfinished (fun s => s.expValue != 0) powerRound (dateBits + 1)
          ⟨if d &&& 1 ≠ 0 then some base else none, base, d >>> 1⟩
        match power.result with
        | some result => return result
        | none => .error .invalidAccess) = result ∧
      ((Returns result (base.toInt ^ d.toNat) ∧ LastProductFits base.toInt.natAbs d.toNat) ∨
        (result = .error sizeExceeded ∧ Refused base.toInt.natAbs d.toNat)) := by
  have positive : d.toNat ≠ 0 := fun zero => some' (UInt32.toNat_inj.mp zero)
  have bit : d &&& 1 ≠ 0 ↔ d.toNat.testBit 0 = true := testBit_iff_odd d (by simp)
  have first := mod_next d.toNat 0
  rw [Nat.pow_zero, Nat.mod_one, Nat.zero_add] at first
  have start : PowerAt base.toInt d.toNat 0 ⟨if d &&& 1 ≠ 0 then some base else none, base, d >>> 1⟩ := by
    refine ⟨toNat_half d, ⟨canonical, (pow_one _).symm⟩, fun even => ?_, fun odd => ?_, fun i le _ low => ?_⟩
    · refine if_neg fun set => ?_
      rw [first, if_pos (bit.mp set)] at even
      cases even
    · by_cases set : d &&& 1 ≠ 0
      · refine ⟨base, if_pos set, canonical, ?_⟩
        rw [first, if_pos (bit.mp set), pow_one]
      · rw [first, if_neg (bit.not.mp set)] at odd
        exact absurd rfl odd
    · obtain rfl := Nat.le_zero.mp le
      exact absurd (Nat.mod_one _) low
  have small : (d >>> 1).toNat < 2 ^ dateBits := by
    rw [toNat_half]
    have := d.toNat_lt
    show d.toNat / 2 < 2 ^ 32
    omega
  refine ⟨_, rfl, ?_⟩
  rcases powerLoop_spec nonzero start small with ⟨s, j, ran, atEnd, done⟩ | ⟨failed, refused⟩
  · left
    have whole : d.toNat < 2 ^ (j + 1) := by
      have quotient := atEnd.expValue
      rw [done] at quotient
      exact (Nat.div_eq_zero_iff_lt (Nat.two_pow_pos _)).mp quotient.symm
    obtain ⟨r, result, canonicalR, value⟩ := atEnd.some (by rwa [Nat.mod_eq_of_lt whole])
    rw [Nat.mod_eq_of_lt whole] at value
    refine ⟨⟨r, by rw [ran, ok_bind, result]; rfl, canonicalR, value⟩, .inr ?_⟩
    by_cases rest : restOf d.toNat = 0
    · exact .inl rest
    · have le : d.toNat.log2 ≤ j := Nat.lt_succ_iff.mp ((Nat.log2_lt positive).mpr whole)
      exact .inr (atEnd.roomy _ le (Nat.testBit_log2 positive) rest)
  · exact .inr ⟨by rw [failed]; rfl, refused⟩

/-! ## `Exponentiate` -/

theorem odd_digit {digits : List UInt32} {d : UInt32} (read : digits[0]? = some d) :
    d.toNat % 2 = magnitude digits % 2 := by
  cases digits with
  | nil => cases read
  | cons first rest =>
    obtain rfl : first = d := Option.some.inj read
    rw [magnitude_cons]
    omega

/-- The fast path for 1 and -1. -/
theorem powerOfUnit {d : UInt32} (canonical : base.Canonical) (unit : base.digits = [1]) {n : Nat}
    (parity : d.toNat % 2 = n % 2) :
    Returns (if base.sign ∧ d &&& 1 = 0 then unaryMinus base else .ok base) (base.toInt ^ n) := by
  have odd := odd_iff d
  rw [parity] at odd
  have value : base.toInt = signum base.sign := by rw [toInt_eq, unit, magnitude_singleton]; simp
  by_cases flips : base.sign = true ∧ d &&& 1 = 0
  · rw [if_pos flips]
    obtain ⟨r, ran, canonicalR, valueR⟩ := unaryMinus_spec canonical
    refine ⟨r, ran, canonicalR, ?_⟩
    have even : n % 2 = 0 := by
      rw [flips.2] at odd
      have := of_decide_eq_false odd.symm
      omega
    rw [valueR, value, flips.1, signum, if_pos rfl, (Nat.even_iff.mpr even).neg_one_pow]
    rfl
  · rw [if_neg flips]
    refine ⟨base, rfl, canonical, ?_⟩
    rw [value]
    cases sign : base.sign with
    | false => simp [signum]
    | true =>
      have set : n % 2 = 1 := by
        have bit : (d &&& 1 != 0) = true := bne_iff_ne.mpr fun zero => flips ⟨sign, zero⟩
        exact of_decide_eq_true (odd.symm.trans bit)
      rw [signum, if_pos rfl, (Nat.odd_iff.mpr set).neg_one_pow]

theorem not_representable {v : Int} {n : Nat} (base : 2 ≤ b.natAbs) (large : maxBits ≤ n)
    (value : v = b ^ n) : ¬Representable v := by
  have bits : (2 ^ 32) ^ maxSize = 2 ^ maxBits := by
    rw [← pow_mul, show 32 * maxSize = maxBits from rfl]
  rw [Representable, value, Int.natAbs_pow, bits, Nat.not_lt]
  exact Nat.le_trans (Nat.pow_le_pow_right (by norm_num) large) (Nat.pow_le_pow_left base n)

/-- What `Exponentiate` does: an error says that the power has no BigInt or that the last product has
    no room. -/
theorem exponentiate_cases (cb : base.Canonical) (ce : exponent.Canonical)
    (nonneg : exponent.sign = false) :
    (Returns (exponentiate base exponent) (base.toInt ^ magnitude exponent.digits) ∧
      LastProductFits base.toInt.natAbs (magnitude exponent.digits)) ∨
    (exponentiate base exponent = .error sizeExceeded ∧
      (¬Representable (base.toInt ^ magnitude exponent.digits) ∨
        ¬LastProductFits base.toInt.natAbs (magnitude exponent.digits))) := by
  rw [exponentiate, if_neg (by simp [nonneg])]
  by_cases zeroE : exponent.isZero = true
  · rw [if_pos zeroE, int32ToBigInt_one, isZero_iff.mp zeroE, show magnitude [0] = 0 from rfl, pow_zero]
    exact .inl ⟨⟨_, rfl, canonical_single (by decide), rfl⟩, .inr (.inl rfl)⟩
  have nonzeroE : magnitude exponent.digits ≠ 0 :=
    Nat.pos_iff_ne_zero.mp (ce.magnitude_pos (isZero_eq_false_iff.mp (Bool.eq_false_iff.mpr zeroE)))
  rw [if_neg zeroE]
  by_cases zeroB : base.isZero = true
  · have value := cb.toInt_eq_zero_iff.mpr (isZero_iff.mp zeroB)
    rw [if_pos zeroB, value]
    refine .inl ⟨⟨base, rfl, cb, ?_⟩, .inl (by decide)⟩
    rw [value, zero_pow nonzeroE]
  have nonzeroB : base.toInt ≠ 0 := fun value => zeroB (isZero_iff.mpr (cb.toInt_eq_zero_iff.mp value))
  rw [if_neg zeroB]
  obtain ⟨d, read⟩ := exists_digit (show 0 < exponent.digits.length from ce.positive)
  obtain ⟨bd, readB⟩ := exists_digit (show 0 < base.digits.length from cb.positive)
  have single {w : UInt32} (is : base.length = 1 ∧ bd = w) : base.digits = [w] := by
    obtain ⟨c, digits⟩ := List.length_eq_one_iff.mp (show base.digits.length = 1 from is.1)
    rw [digits] at readB ⊢
    obtain rfl : c = bd := Option.some.inj readB
    rw [is.2]
  rw [getDigit_eq read, ok_bind, getDigit_eq readB, ok_bind]
  by_cases unit : base.length = 1 ∧ bd = 1
  · rw [if_pos unit]
    refine .inl ⟨powerOfUnit cb (single unit) (odd_digit read), .inl ?_⟩
    rw [toInt_natAbs, single unit]
    decide
  rw [if_neg unit]
  have two : 2 ≤ base.toInt.natAbs := by
    rw [toInt_natAbs]
    by_contra small
    have one : magnitude base.digits = 1 := by
      have := cb.magnitude_pos (isZero_eq_false_iff.mp (Bool.eq_false_iff.mpr zeroB))
      omega
    obtain ⟨short, digit⟩ := cb.eq_one_iff.mpr one
    refine unit ⟨by simpa [isUint32] using short, ?_⟩
    exact Option.some.inj (readB.symm.trans digit)
  by_cases long : exponent.length > 1
  · rw [if_pos long]
    have large := ce.two_pow_le_magnitude long
    exact .inr ⟨rfl, .inl (not_representable two (Nat.le_trans (by decide) large) rfl)⟩
  have digit := ce.magnitude_of_length_le (Nat.le_of_not_lt long) read
  rw [if_neg long, digit]
  by_cases isTwo : base.length = 1 ∧ bd = 2
  · have value : base.toInt = signum base.sign * 2 := by
      rw [toInt_eq, single isTwo, magnitude_singleton]
      rfl
    have fits : LastProductFits base.toInt.natAbs d.toNat := by
      refine .inl ?_
      rw [toInt_natAbs, single isTwo]
      decide
    rw [if_pos isTwo]
    rcases powerOfTwo_spec base.sign d with ⟨large, failed⟩ | ⟨-, returns⟩
    · refine .inr ⟨failed, .inl (not_representable two ?_ rfl)⟩
      rw [show maxBits = 32 * maxSize from rfl]
      omega
    · rw [← value] at returns
      exact .inl ⟨returns, fits⟩
  · have some' : d ≠ 0 := by
      rintro rfl
      exact nonzeroE digit
    rw [if_neg isTwo]
    obtain ⟨result, ran, returns | ⟨failed, refused⟩⟩ := powerLoop_cases cb nonzeroB some'
    · rw [← ran] at returns
      exact .inl returns
    · refine .inr ⟨ran.trans failed, ?_⟩
      rcases refused.cases (by omega) with large | ⟨rest, large⟩
      · left
        rw [representable_iff, Int.natAbs_pow]
        omega
      · refine .inr fun fits => ?_
        rcases fits with few | none' | room
        · rw [toInt_natAbs] at few two
          by_cases several : 1 < base.length
          · have := cb.two_pow_le_magnitude several
            omega
          · have value := cb.magnitude_of_length_le (Nat.le_of_not_lt several) readB
            have positive := cb.positive
            exact isTwo ⟨by omega, UInt32.toNat_inj.mp (by rw [← value]; exact Nat.le_antisymm few two)⟩
        · exact rest none'
        · omega

/-- The call returns the power or throws, and throws exactly if the power has no BigInt. -/
def ExponentiatesExactly (base exponent : BigInt) : Prop :=
  ReturnsOr sizeExceeded (exponentiate base exponent) (base.toInt ^ exponent.toInt.toNat) ∧
    (exponentiate base exponent = .error sizeExceeded ↔
      ¬Representable (base.toInt ^ exponent.toInt.toNat))

/-- `Exponentiate` throws only for powers that have no BigInt exactly if the last product, where the
    power has one, has room. -/
theorem exponentiatesExactly_iff (base exponent : BigInt) (cb : base.Canonical)
    (ce : exponent.Canonical) (nonneg : exponent.sign = false) :
    ExponentiatesExactly base exponent ↔
      (Representable (base.toInt ^ exponent.toInt.toNat) →
        LastProductFits base.toInt.natAbs exponent.toInt.toNat) := by
  have count : exponent.toInt.toNat = magnitude exponent.digits := by
    rw [toInt_of_not_sign nonneg, Int.toNat_natCast]
  rw [ExponentiatesExactly, count]
  rcases exponentiate_cases cb ce nonneg with ⟨returns, fits⟩ | ⟨failed, reason⟩
  · have representable : Representable (base.toInt ^ magnitude exponent.digits) := by
      obtain ⟨r, -, canonical, value⟩ := returns
      rw [Representable, ← value, toInt_natAbs]
      exact Nat.lt_of_lt_of_le (magnitude_lt _) (Nat.pow_le_pow_right (by norm_num) canonical.size)
    have notFailed : exponentiate base exponent ≠ .error sizeExceeded := by
      obtain ⟨r, ran, -⟩ := returns
      rw [ran]
      exact nofun
    exact ⟨fun _ _ => fits, fun _ => ⟨.inr returns, fun failed => absurd failed notFailed,
      fun absent => absurd representable absent⟩⟩
  · constructor
    · intro exactly representable
      exact absurd representable (exactly.2.mp failed)
    · intro fits
      refine ⟨.inl failed, fun _ representable => ?_, fun _ => failed⟩
      exact reason.elim (fun absent => absent representable) fun full => full (fits representable)

theorem exponentiatesExactly_iff_cube :
    let base : BigInt := ⟨true, [3]⟩
    let exponent : BigInt := ⟨false, [5]⟩
    base.Canonical ∧ exponent.Canonical ∧ exponent.sign = false ∧
      (ExponentiatesExactly base exponent ↔
        (Representable (base.toInt ^ exponent.toInt.toNat) →
          LastProductFits base.toInt.natAbs exponent.toInt.toNat)) := by
  intro base exponent
  have cb : base.Canonical := by decide
  have ce : exponent.Canonical := by decide
  exact ⟨cb, ce, rfl, exponentiatesExactly_iff base exponent cb ce rfl⟩

/-- `2 ** 349520` in its digits. -/
def sparse : BigInt := ⟨false, List.replicate 10922 0 ++ [65536]⟩

theorem length_sparse : sparse.length = 10923 := by
  rw [length, sparse, List.length_append, List.length_replicate]
  rfl

theorem canonical_sparse : sparse.Canonical := by
  have zeros : (List.replicate 10922 (0 : UInt32)).length = 10922 := List.length_replicate
  refine @canonical_of_top _ 65536 ?_ ?_ (by decide)
  · rw [length_sparse]
    decide
  · rw [length_sparse, sparse, List.getElem?_append_right (Nat.le_of_eq zeros), zeros]
    rfl

theorem natAbs_sparse : sparse.toInt.natAbs = 2 ^ 349520 := by
  rw [toInt_natAbs, sparse, magnitude, words.value_append, List.length_replicate, words_base,
    ← pow_mul, show (349520 : Nat) = 32 * 10922 + 16 from rfl, pow_add]
  have zero : words.value (List.replicate 10922 0) = 0 := magnitude_replicate 10922
  rw [zero, Nat.zero_add]
  exact congrArg _ (magnitude_singleton 65536)

/-- The cube of `2 ** 349520` has a BigInt of 32768 digits, but its last product asks for one more. -/
theorem exponentiate_refuses_cube :
    sparse.Canonical ∧ exponentiate sparse ⟨false, [3]⟩ = .error sizeExceeded ∧
      Representable (sparse.toInt ^ 3) ∧ ¬ExponentiatesExactly sparse ⟨false, [3]⟩ := by
  have three : (⟨false, [3]⟩ : BigInt).Canonical := by decide
  have representable : Representable (sparse.toInt ^ 3) := by
    rw [Representable, Int.natAbs_pow, natAbs_sparse, ← pow_mul, ← pow_mul]
    exact Nat.pow_lt_pow_right (by decide) (by decide)
  have full : ¬LastProductFits sparse.toInt.natAbs 3 := by
    have first : 10922 < digitCount (sparse.toInt.natAbs ^ 1) := by
      rw [lt_digitCount_iff, natAbs_sparse, ← pow_mul, ← pow_mul]
      exact Nat.pow_le_pow_right (by decide) (by decide)
    have second : 21845 < digitCount (sparse.toInt.natAbs ^ 2) := by
      rw [lt_digitCount_iff, natAbs_sparse, ← pow_mul, ← pow_mul]
    rintro (small | none' | room)
    · rw [natAbs_sparse] at small
      have large : 2 ^ 2 ≤ 2 ^ 349520 := Nat.pow_le_pow_right (by decide) (by decide)
      omega
    · exact absurd none' (by decide)
    · have parts : restOf 3 = 1 ∧ (3 : Nat).log2 = 1 := by decide
      rw [parts.1, parts.2, show 2 ^ 1 = 2 from rfl, maxSize_eq] at room
      omega
  have failed : exponentiate sparse ⟨false, [3]⟩ = .error sizeExceeded := by
    have count : magnitude (⟨false, [3]⟩ : BigInt).digits = 3 := magnitude_singleton 3
    have cases' := exponentiate_cases canonical_sparse three rfl
    rw [count] at cases'
    exact cases'.elim (fun returns => absurd returns.2 full) And.left
  exact ⟨canonical_sparse, failed, representable, fun exactly => exactly.2.mp failed representable⟩

end BigInt

end ArkRuntime
