import ArkRuntime.BigInt.Reachable

/-!
# `AsUintN` and `AsintN`

Both compute `2 ** bits` and reduce by it. The shortcut for large counts starts at `kMaxLengthBits`
and not at `MAXBITS`, and the reduction divides, so that between the two limits, for negative
numbers above them and for some numbers of `MAXSIZE` digits the call throws although the result has
a BigInt (`reducesExactly_iff`).
-/

namespace ArkRuntime

namespace BigInt

variable {x y e : BigInt} {bits : Nat}

/-! ## Powers of two as moduli -/

def two : BigInt := ⟨false, [2]⟩

theorem int64ToBigInt_two : int64ToBigInt 2 = .ok two := by decide +kernel

/-- The modulus, or the exception of `Exponentiate`. -/
theorem exponentiate_two (ce : e.Canonical) (value : e.toInt = bits) :
    (maxBits ≤ bits ∧ exponentiate two e = .error sizeExceeded) ∨
      (bits < maxBits ∧ Returns (exponentiate two e) (2 ^ bits)) := by
  have notNegative : e.sign = false := by
    rw [← Bool.not_eq_true, ce.sign_iff, value]
    omega
  have absolute : magnitude e.digits = bits := by
    rw [← toInt_natAbs, value, Int.natAbs_natCast]
  rw [exponentiate, if_neg (by simp [notNegative])]
  by_cases zero : e.isZero = true
  · have none' : bits = 0 := by
      rw [← absolute, isZero_iff.mp zero]
      rfl
    rw [if_pos zero, int32ToBigInt_one, none']
    exact .inr ⟨by decide, _, rfl, by decide, rfl⟩
  rw [if_neg zero, if_neg (by decide)]
  obtain ⟨d, read⟩ := exists_digit (show 0 < e.digits.length from ce.positive)
  have readTwo : getDigit two.digits 0 = .ok 2 := rfl
  rw [getDigit_eq read, ok_bind, readTwo, ok_bind, if_neg (by decide)]
  by_cases long : e.length > 1
  · have large := ce.two_pow_le_magnitude long
    rw [absolute] at large
    rw [if_pos long]
    exact .inl ⟨Nat.le_trans (by decide) large, rfl⟩
  · have digit := ce.magnitude_of_length_le (Nat.le_of_not_lt long) read
    rw [absolute] at digit
    rw [if_neg long, if_pos (by decide)]
    rcases powerOfTwo_spec false d with ⟨large, failed⟩ | ⟨small, returns⟩
    · refine .inl ⟨?_, failed⟩
      rw [digit, show maxBits = 32 * maxSize from rfl]
      omega
    · refine .inr ⟨?_, ?_⟩
      · rw [digit, show maxBits = 32 * maxSize from rfl]
        omega
      · rw [digit]
        simpa [signum, two] using returns

/-! ## `FloorMod` -/

theorem add_of_sign_ne (cx : x.Canonical) (cy : y.Canonical) (opposite : x.sign ≠ y.sign) :
    Returns (add x y) (x.toInt + y.toInt) := by
  have other : y.sign = !x.sign := by
    cases eq : x.sign <;> cases eq' : y.sign <;> simp_all
  have difference := subSmaller_spec cx cy x.sign
  rw [add, if_neg opposite, toInt_eq x, toInt_eq y, other, signum_not, Int.neg_mul,
    ← Int.sub_eq_add_neg, ← Int.mul_sub]
  exact difference

theorem subtract_of_sign_eq (cx : x.Canonical) (cy : y.Canonical) (same : x.sign = y.sign) :
    Returns (subtract x y) (x.toInt - y.toInt) := by
  have difference := subSmaller_spec cx cy x.sign
  rw [subtract, if_neg (not_not.mpr same), toInt_eq x, toInt_eq y, ← same, ← Int.mul_sub]
  exact difference

theorem floorMod_spec (cx : x.Canonical) (cy : y.Canonical) (positive : 0 < y.toInt)
    (fits : DivisionFits x y) : Returns (floorMod x y) (x.toInt % y.toInt) := by
  have nonzero : y.digits ≠ [0] := fun eq => by
    rw [cy.toInt_eq_zero_iff.mpr eq] at positive
    exact absurd positive (by decide)
  obtain ⟨r, ran, canonical, value⟩ := remainder_spec cx cy nonzero fits
  have yNotNegative : y.sign = false := by
    rw [← Bool.not_eq_true, cy.sign_iff]
    omega
  unfold floorMod
  rw [ran, ok_bind]
  have floored := Int.emod_eq_tmod (a := x.toInt) (b := y.toInt)
  rw [← value] at floored
  have rZero : r.isZero = true ↔ y.toInt ∣ x.toInt := by
    rw [isZero_iff, ← canonical.toInt_eq_zero_iff, value, Int.dvd_iff_tmod_eq_zero]
  by_cases adds : x.sign = true ∧ (!r.isZero) = true
  · obtain ⟨xNegative, rNonzero⟩ := adds
    have below := cx.sign_iff.mp xNegative
    have notDvd : ¬y.toInt ∣ x.toInt := by
      rw [← rZero]
      simpa using rNonzero
    have rBelow : r.toInt < 0 := by
      have nonneg := Int.tmod_nonneg y.toInt (show 0 ≤ -x.toInt by omega)
      rw [Int.neg_tmod] at nonneg
      have nonzero : x.toInt.tmod y.toInt ≠ 0 := fun zero => notDvd (Int.dvd_of_tmod_eq_zero zero)
      omega
    rw [if_neg (not_or.mpr ⟨by omega, notDvd⟩), Int.natAbs_of_nonneg (Int.le_of_lt positive)] at floored
    rw [if_pos ⟨xNegative, rNonzero⟩, floored]
    apply add_of_sign_ne canonical cy
    rw [canonical.sign_iff.mpr rBelow, yNotNegative]
    decide
  · have whole : 0 ≤ x.toInt ∨ y.toInt ∣ x.toInt := by
      by_contra neither
      rw [not_or] at neither
      have rNonzero : r.isZero = false := by
        rw [← Bool.not_eq_true, rZero]
        exact neither.2
      exact adds ⟨cx.sign_iff.mpr (by omega), by simp [rNonzero]⟩
    rw [if_pos whole] at floored
    rw [if_neg adds]
    exact ⟨r, rfl, canonical, by simpa using floored.symm⟩

theorem floorMod_throws (cx : x.Canonical) (cy : y.Canonical) (full : ¬DivisionFits x y) :
    floorMod x y = .error sizeExceeded := by
  rw [floorMod, (division_throws cx cy full).2, error_bind]

/-! ## The reductions -/

/-- The call returns the canonical BigInt of `v` whenever there is one, and never another number. -/
structure ReducesTo (result : Except BigIntFault BigInt) (v : Int) : Prop where
  returns : v.natAbs < (2 ^ 32) ^ maxSize → Returns result v
  only : ∀ r, result = .ok r → r.Canonical ∧ r.toInt = v

/-- `v` is the number congruent to `x` modulo `2 ^ bits` that `bits` signed bits hold. -/
def IsSignedResidue (bits : Nat) (x v : Int) : Prop :=
  if bits = 0 then v = 0 else -2 ^ (bits - 1) ≤ v ∧ v < 2 ^ (bits - 1) ∧ (2 ^ bits : Int) ∣ x - v

/-- What `AsUintN` and `AsintN` are to do. -/
def ReducesExactly (bits : Nat) (x : BigInt) : Prop :=
  ReducesTo (asUintN (Int64.ofNat bits) x) (x.toInt % 2 ^ bits) ∧
    ∀ v, IsSignedResidue bits x.toInt v → ReducesTo (asintN (Int64.ofNat bits) x) v

/-- The counts for which the modulus is not needed or can be computed and divided by. -/
def ModulusFits (bits : Nat) (x : BigInt) : Prop :=
  bits = 0 ∨ x.toInt = 0 ∨ (2 ^ 30 ≤ bits ∧ 0 ≤ x.toInt) ∨
    (bits < maxBits ∧ (x.length < maxSize ∨ bits < 32 ∨ x.toInt.natAbs ≤ 2 ^ bits))

theorem Returns.reducesTo {result : Except BigIntFault BigInt} {v : Int} (returns : Returns result v) :
    ReducesTo result v := by
  refine ⟨fun _ => returns, fun r ran => ?_⟩
  obtain ⟨s, ran', canonical, value⟩ := returns
  rw [ran] at ran'
  cases ran'
  exact ⟨canonical, value⟩

theorem not_reducesTo_of_throws {result : Except BigIntFault BigInt} {v : Int} {fault : BigIntFault}
    (throws : result = .error fault) (fits : v.natAbs < (2 ^ 32) ^ maxSize) :
    ¬ReducesTo result v := by
  intro reduces
  obtain ⟨r, ran, -⟩ := reduces.returns fits
  rw [throws] at ran
  cases ran

theorem IsSignedResidue.unique {z v w : Int} (first : IsSignedResidue bits z v)
    (second : IsSignedResidue bits z w) : v = w := by
  unfold IsSignedResidue at first second
  split at first
  · next none' =>
    rw [if_pos none'] at second
    rw [first, second]
  · next some' =>
    rw [if_neg some'] at second
    obtain ⟨k, rfl⟩ : ∃ k, bits = k + 1 := ⟨bits - 1, by omega⟩
    rw [Nat.add_sub_cancel, pow_succ] at first second
    have difference : (2 ^ k * 2 : Int) ∣ v - w := by
      have := Int.dvd_sub second.2.2 first.2.2
      rwa [show z - w - (z - v) = v - w by ring] at this
    have := Int.eq_zero_of_abs_lt_dvd difference (by rw [abs_lt]; constructor <;> omega)
    omega

/-- The number that `AsintN` returns. -/
theorem isSignedResidue_emod (z : Int) (positive : 0 < bits) :
    IsSignedResidue bits z (if 2 ^ (bits - 1) ≤ z % 2 ^ bits then z % 2 ^ bits - 2 ^ bits
      else z % 2 ^ bits) := by
  obtain ⟨k, rfl⟩ : ∃ k, bits = k + 1 := ⟨bits - 1, by omega⟩
  have power : (0 : Int) < 2 ^ k := by positivity
  have low := Int.emod_nonneg z (show (2 ^ (k + 1) : Int) ≠ 0 by positivity)
  have high := Int.emod_lt_of_pos z (show (0 : Int) < 2 ^ (k + 1) by positivity)
  have congruent : (2 ^ (k + 1) : Int) ∣ z - z % 2 ^ (k + 1) := Int.dvd_self_sub_emod
  rw [IsSignedResidue, if_neg (by omega), Nat.add_sub_cancel]
  have double : (2 ^ (k + 1) : Int) = 2 ^ k * 2 := pow_succ 2 k
  split
  · refine ⟨by omega, by omega, ?_⟩
    · have := Int.dvd_add congruent (Int.dvd_refl (2 ^ (k + 1)))
      rwa [show z - z % 2 ^ (k + 1) + 2 ^ (k + 1) = z - (z % 2 ^ (k + 1) - 2 ^ (k + 1)) by ring]
        at this
  · exact ⟨by omega, by omega, congruent⟩

theorem IsSignedResidue.self {z : Int} (positive : 0 < bits) (low : -2 ^ (bits - 1) ≤ z)
    (high : z < 2 ^ (bits - 1)) : IsSignedResidue bits z z := by
  rw [IsSignedResidue, if_neg (by omega), Int.sub_self]
  exact ⟨low, high, Int.dvd_zero _⟩

theorem IsSignedResidue.natAbs_le {z v : Int} (residue : IsSignedResidue bits z v) :
    v.natAbs ≤ z.natAbs := by
  by_cases none' : bits = 0
  · rw [IsSignedResidue, if_pos none'] at residue
    rw [residue]
    exact Nat.zero_le _
  · by_cases inside : -2 ^ (bits - 1) ≤ z ∧ z < 2 ^ (bits - 1)
    · rw [residue.unique (IsSignedResidue.self (by omega) inside.1 inside.2)]
    · rw [IsSignedResidue, if_neg none'] at residue
      omega

/-! ## When the reductions are exact -/

theorem toInt_ofNat_bits (small : bits < 2 ^ 53) : (Int64.ofNat bits).toInt = bits :=
  Int64.toInt_ofNat_of_lt (by omega)

theorem ofNat_bits_eq_zero_iff (small : bits < 2 ^ 53) : Int64.ofNat bits = 0 ↔ bits = 0 := by
  rw [← Int64.toInt_inj, toInt_ofNat_bits small, Int64.toInt_zero]
  omega

theorem kMaxLengthBits_le_iff (small : bits < 2 ^ 53) :
    Int64.ofNat bits ≥ kMaxLengthBits ↔ 2 ^ 30 ≤ bits := by
  rw [ge_iff_le, Int64.le_iff_toInt_le, toInt_ofNat_bits small,
    show kMaxLengthBits.toInt = 2 ^ 30 by decide]
  omega

theorem shortcut_iff (cx : x.Canonical) : (!x.sign) = true ↔ 0 ≤ x.toInt := by
  have := cx.sign_iff
  rw [Bool.not_eq_true', ← Bool.not_eq_true, this]
  omega

/-- `AsUintN` where it needs the modulus. -/
theorem asUintN_eq (cx : x.Canonical) (small : bits < 2 ^ 53) (some' : bits ≠ 0)
    (nonzero : x.toInt ≠ 0) :
    ∃ e : BigInt, e.Canonical ∧ e.toInt = bits ∧ asUintN (Int64.ofNat bits) x =
      if 2 ^ 30 ≤ bits ∧ 0 ≤ x.toInt then .ok x else exponentiate two e >>= floorMod x := by
  obtain ⟨e, ran, canonical, value⟩ := uint64ToBigInt_spec (Int64.ofNat bits).toUInt64
  refine ⟨e, canonical, ?_, ?_⟩
  · rw [value, Int64.toUInt64_ofNat', UInt64.toNat_ofNat']
    omega
  · have notZero : ¬x.isZero = true := by
      rwa [isZero_iff, ← cx.toInt_eq_zero_iff]
    have bitNe : ¬Int64.ofNat bits = 0 := by rwa [ofNat_bits_eq_zero_iff small]
    simp only [asUintN, if_neg bitNe, if_neg notZero, ran, int64ToBigInt_two, ok_bind,
      kMaxLengthBits_le_iff small, shortcut_iff cx, pure_eq_ok]

/-- `AsintN` where it needs the modulus. -/
theorem asintN_eq (cx : x.Canonical) (small : bits < 2 ^ 53) (some' : bits ≠ 0)
    (nonzero : x.toInt ≠ 0) :
    ∃ e e' : BigInt, e.Canonical ∧ e.toInt = bits ∧ e'.Canonical ∧ e'.toInt = ((bits - 1 : Nat) : Int) ∧
      asintN (Int64.ofNat bits) x =
        if 2 ^ 30 ≤ bits ∧ 0 ≤ x.toInt then .ok x else do
          let tValue ← exponentiate two e
          let modValue ← floorMod x tValue
          let resValue ← exponentiate two e'
          let order ← compare resValue modValue
          if order ≠ .great then subtract modValue tValue else return modValue := by
  obtain ⟨e, ran, canonical, value⟩ := int64ToBigInt_spec (Int64.ofNat bits)
  obtain ⟨e', ran', canonical', value'⟩ := int64ToBigInt_spec (Int64.ofNat bits - 1)
  refine ⟨e, e', canonical, ?_, canonical', ?_, ?_⟩
  · rw [value, toInt_ofNat_bits small]
  · rw [value', Int64.toInt_sub, toInt_ofNat_bits small, Int64.toInt_one,
      Int.bmod_eq_of_le (by omega) (by omega)]
    omega
  · have notZero : ¬x.isZero = true := by
      rwa [isZero_iff, ← cx.toInt_eq_zero_iff]
    have bitNe : ¬Int64.ofNat bits = 0 := by rwa [ofNat_bits_eq_zero_iff small]
    simp only [asintN, if_neg bitNe, if_neg notZero, ran, ran', int64ToBigInt_two, ok_bind,
      kMaxLengthBits_le_iff small, shortcut_iff cx, pure_eq_ok]

theorem divisionFits_iff {t : BigInt} (ct : t.Canonical) (value : t.toInt = 2 ^ bits) :
    DivisionFits x t ↔ x.length < maxSize ∨ bits < 32 ∨ x.toInt.natAbs ≤ 2 ^ bits := by
  have absolute : magnitude t.digits = 2 ^ bits := by
    rw [← toInt_natAbs, value, Int.natAbs_pow]
    rfl
  have single : t.length = 1 ↔ bits < 32 := by
    constructor
    · intro one
      obtain ⟨d, eq⟩ := List.length_eq_one_iff.mp one
      have bound := d.toNat_lt
      rw [eq, magnitude_singleton] at absolute
      rw [absolute] at bound
      exact (Nat.pow_lt_pow_iff_right (by norm_num)).mp bound
    · intro less
      by_contra several
      have := ct.positive
      have large := ct.two_pow_le_magnitude (by omega)
      rw [absolute] at large
      exact absurd ((Nat.pow_le_pow_iff_right (by norm_num)).mp large) (by omega)
  rw [DivisionFits, single, toInt_natAbs, absolute]

/-- A number without the sign of a large modulus is its own residue. -/
theorem natAbs_lt_two_pow (cx : x.Canonical) : x.toInt.natAbs < 2 ^ maxBits := by
  have := cx.natAbs_lt
  rwa [pow_maxSize] at this

theorem natAbs_lt_two_pow_of_le (cx : x.Canonical) (large : maxBits ≤ bits) :
    x.toInt.natAbs < 2 ^ bits :=
  Nat.lt_of_lt_of_le (natAbs_lt_two_pow cx) (Nat.pow_le_pow_right (by norm_num) large)

theorem reducesExactly_of_zero_bits (x : BigInt) : ReducesExactly 0 x := by
  have returns : Returns (int32ToBigInt 0) 0 := ⟨_, int32ToBigInt_zero, canonical_zero, rfl⟩
  refine ⟨?_, fun v residue => ?_⟩
  · rw [pow_zero, Int.emod_one]
    exact returns.reducesTo
  · rw [IsSignedResidue, if_pos rfl] at residue
    rw [residue]
    exact returns.reducesTo

theorem reducesExactly_of_zero (cx : x.Canonical) (small : bits < 2 ^ 53) (some' : bits ≠ 0)
    (zero : x.toInt = 0) : ReducesExactly bits x := by
  have isZero : x.isZero = true := isZero_iff.mpr (cx.toInt_eq_zero_iff.mp zero)
  have bitNe : ¬Int64.ofNat bits = 0 := by rwa [ofNat_bits_eq_zero_iff small]
  have returns : Returns (.ok x) 0 := ⟨x, rfl, cx, zero⟩
  refine ⟨?_, fun v residue => ?_⟩
  · rw [asUintN, if_neg bitNe, if_pos isZero, zero, Int.zero_emod]
    exact returns.reducesTo
  · have self : IsSignedResidue bits 0 0 :=
      IsSignedResidue.self (by omega) (by simp) (by positivity)
    rw [zero] at residue
    rw [asintN, if_neg bitNe, if_pos isZero, residue.unique self]
    exact returns.reducesTo

/-- Counts from `kMaxLengthBits` on leave a number that is not negative as it is. -/
theorem reducesExactly_of_shortcut (cx : x.Canonical) (small : bits < 2 ^ 53)
    (nonzero : x.toInt ≠ 0) (large : 2 ^ 30 ≤ bits) (nonneg : 0 ≤ x.toInt) :
    ReducesExactly bits x := by
  have some' : bits ≠ 0 := by omega
  have returns : Returns (.ok x) x.toInt := ⟨x, rfl, cx, rfl⟩
  have below : x.toInt < 2 ^ (bits - 1) := by
    have := natAbs_lt_two_pow_of_le cx (show maxBits ≤ bits - 1 by rw [maxBits]; omega)
    zify at this
    rwa [abs_of_nonneg nonneg] at this
  have double : (2 ^ bits : Int) = 2 ^ (bits - 1) * 2 := by
    rw [← pow_succ, Nat.sub_add_cancel (by omega)]
  refine ⟨?_, fun v residue => ?_⟩
  · obtain ⟨e, -, -, eq⟩ := asUintN_eq cx small some' nonzero
    rw [eq, if_pos ⟨large, nonneg⟩, Int.emod_eq_of_lt nonneg (by omega)]
    exact returns.reducesTo
  · obtain ⟨e, e', -, -, -, -, eq⟩ := asintN_eq cx small some' nonzero
    have power : (0 : Int) < 2 ^ (bits - 1) := by positivity
    rw [eq, if_pos ⟨large, nonneg⟩,
      residue.unique (IsSignedResidue.self (by omega) (by omega) below)]
    exact returns.reducesTo

theorem reducesExactly_of_division (cx : x.Canonical) (small : bits < maxBits) (some' : bits ≠ 0)
    (nonzero : x.toInt ≠ 0)
    (fits : x.length < maxSize ∨ bits < 32 ∨ x.toInt.natAbs ≤ 2 ^ bits) : ReducesExactly bits x := by
  have small53 : bits < 2 ^ 53 := Nat.lt_trans small (by decide)
  have noShortcut : ¬(2 ^ 30 ≤ bits ∧ 0 ≤ x.toInt) := by
    rw [maxBits] at small
    omega
  have modulus : ∀ {e : BigInt}, e.Canonical → e.toInt = bits → ∃ t, exponentiate two e = .ok t ∧
      t.Canonical ∧ t.toInt = 2 ^ bits ∧ Returns (floorMod x t) (x.toInt % 2 ^ bits) := by
    intro e ce value
    rcases exponentiate_two ce value with ⟨large, -⟩ | ⟨-, t, ran, ct, valueT⟩
    · omega
    · have floored := floorMod_spec cx ct (by rw [valueT]; positivity)
        ((divisionFits_iff ct valueT).mpr fits)
      rw [valueT] at floored
      exact ⟨t, ran, ct, valueT, floored⟩
  refine ⟨?_, fun v residue => ?_⟩
  · obtain ⟨e, ce, value, eq⟩ := asUintN_eq cx small53 some' nonzero
    obtain ⟨t, ran, -, -, floored⟩ := modulus ce value
    rw [eq, if_neg noShortcut, ran, ok_bind]
    exact floored.reducesTo
  · obtain ⟨e, e', ce, value, ce', value', eq⟩ := asintN_eq cx small53 some' nonzero
    obtain ⟨t, ran, ct, valueT, m, ranM, cm, valueM⟩ := modulus ce value
    obtain ⟨h, ranH, ch, valueH⟩ : ∃ h, exponentiate two e' = .ok h ∧ h.Canonical ∧
        h.toInt = 2 ^ (bits - 1) := by
      rcases exponentiate_two ce' value' with ⟨large, -⟩ | ⟨-, returns⟩
      · omega
      · exact returns
    rw [eq, if_neg noShortcut, ran, ok_bind, ranM, ok_bind, ranH, ok_bind, compare_spec ch cm, ok_bind,
      residue.unique (isSignedResidue_emod x.toInt (by omega)), valueH, valueM]
    apply Returns.reducesTo
    have nonneg := Int.emod_nonneg x.toInt (show (2 ^ bits : Int) ≠ 0 by positivity)
    have order : orderOf (2 ^ (bits - 1)) (x.toInt % 2 ^ bits) ≠ .great ↔
        2 ^ (bits - 1) ≤ x.toInt % 2 ^ bits := by
      unfold orderOf
      split
      · simp
        omega
      · split
        · simp
          omega
        · simp
          omega
    by_cases upper : 2 ^ (bits - 1) ≤ x.toInt % 2 ^ bits
    · rw [if_pos (order.mpr upper), if_pos upper]
      have same : m.sign = t.sign := by
        have mNot : ¬m.sign = true := by
          rw [cm.sign_iff, valueM]
          omega
        have tNot : ¬t.sign = true := by
          rw [ct.sign_iff, valueT]
          exact not_lt.mpr (by positivity)
        rw [Bool.not_eq_true] at mNot tNot
        rw [mNot, tNot]
      have difference := subtract_of_sign_eq cm ct same
      rwa [valueM, valueT] at difference
    · rw [if_neg (fun no => upper (order.mp no)), if_neg upper]
      exact ⟨m, rfl, cm, valueM⟩

/-- Elsewhere `AsintN` throws, although the residue has a BigInt. -/
theorem not_reducesExactly (cx : x.Canonical) (small : bits < 2 ^ 53)
    (outside : ¬ModulusFits bits x) : ¬ReducesExactly bits x := by
  simp only [ModulusFits, not_or] at outside
  obtain ⟨some', nonzero, noShortcut, noDivision⟩ := outside
  obtain ⟨e, e', ce, value, -, -, eq⟩ := asintN_eq cx small some' nonzero
  have throws : asintN (Int64.ofNat bits) x = .error sizeExceeded := by
    rw [eq, if_neg noShortcut]
    rcases exponentiate_two ce value with ⟨-, failed⟩ | ⟨below, t, ran, ct, valueT⟩
    · rw [failed, error_bind]
    · have full : ¬DivisionFits x t := fun fits =>
        noDivision ⟨below, (divisionFits_iff ct valueT).mp fits⟩
      rw [ran, ok_bind, floorMod_throws cx ct full, error_bind]
  have residue := isSignedResidue_emod x.toInt (Nat.pos_of_ne_zero some')
  intro reduces
  exact not_reducesTo_of_throws throws (Nat.lt_of_le_of_lt residue.natAbs_le cx.natAbs_lt)
    (reduces.2 _ residue)

/-- The reductions are exact exactly when the modulus is not needed or fits. -/
theorem reducesExactly_iff (bits : Nat) (x : BigInt) (cx : x.Canonical) (small : bits < 2 ^ 53) :
    ReducesExactly bits x ↔ ModulusFits bits x := by
  refine ⟨fun exact' => by_contra fun outside => not_reducesExactly cx small outside exact', ?_⟩
  intro fits
  by_cases none' : bits = 0
  · rw [none']
    exact reducesExactly_of_zero_bits x
  by_cases zero : x.toInt = 0
  · exact reducesExactly_of_zero cx small none' zero
  rcases fits with absurd' | absurd' | ⟨large, nonneg⟩ | ⟨below, division⟩
  · exact absurd absurd' none'
  · exact absurd absurd' zero
  · exact reducesExactly_of_shortcut cx small zero large nonneg
  · exact reducesExactly_of_division cx below none' zero division

theorem reducesExactly_iff_negative :
    let x : BigInt := ⟨true, [5, 1]⟩
    x.Canonical ∧ 64 < 2 ^ 53 ∧ (ReducesExactly 64 x ↔ ModulusFits 64 x) := by
  intro x
  have cx : x.Canonical := by decide
  exact ⟨cx, by norm_num, reducesExactly_iff 64 x cx (by norm_num)⟩

theorem isSignedResidue_neg_one (positive : 0 < bits) : IsSignedResidue bits (-1) (-1) := by
  have one : (1 : Int) ≤ 2 ^ (bits - 1) := one_le_pow₀ (by norm_num)
  exact IsSignedResidue.self positive (by omega) (by omega)

/-- `BigInt.asIntN(2 ** 20, -1n)` throws. -/
theorem asintN_throws_for_minus_one :
    let x : BigInt := ⟨true, [1]⟩
    x.Canonical ∧ asintN (Int64.ofNat (2 ^ 20)) x = .error sizeExceeded ∧
      IsSignedResidue (2 ^ 20) x.toInt (-1) ∧ ¬ReducesExactly (2 ^ 20) x := by
  intro x
  have cx : x.Canonical := by decide
  have throws : asintN (Int64.ofNat (2 ^ 20)) x = .error sizeExceeded := by decide +kernel
  have residue : IsSignedResidue (2 ^ 20) x.toInt (-1) := isSignedResidue_neg_one (by norm_num)
  refine ⟨cx, throws, residue, fun reduces => ?_⟩
  exact not_reducesTo_of_throws throws (Nat.lt_of_le_of_lt residue.natAbs_le cx.natAbs_lt)
    (reduces.2 _ residue)

end BigInt

end ArkRuntime
