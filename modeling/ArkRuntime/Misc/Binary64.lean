import Mathlib.Algebra.Order.Field.Rat

/-!
# Doubles
-/

/-!
## The nearest of increasing points

The points `V 0 < V 1 < ... < V N` among the natural numbers. `IsNearest V N x p` says that no point is
nearer to `x` than the one with the number `p`, and that `p` is even if another one is as near. There is
only one such point. Between two neighbours it is one of these two, and beyond the last point it is that.
-/

namespace ArkRuntime

variable {V : Nat → Nat} {N x p q : Nat}

def IsNearest (V : Nat → Nat) (N x p : Nat) : Prop :=
  p ≤ N ∧ ∀ q ≤ N, q ≠ p → ((V p : Int) - x).natAbs < ((V q : Int) - x).natAbs ∨
    (((V p : Int) - x).natAbs = ((V q : Int) - x).natAbs ∧ p % 2 = 0)

/-- Of two points that are equally near the lower one is below and its successor is not between. -/
theorem IsNearest.unique_of_lt (mono : StrictMono V) (first : IsNearest V N x p)
    (second : IsNearest V N x q) : ¬ p < q := by
  intro less
  have far := first.2 q second.1 (Nat.ne_of_gt less)
  have near := second.2 p first.1 (Nat.ne_of_lt less)
  have apart : V p < V q := mono less
  by_cases next : q = p + 1
  · omega
  · have lower : V p < V (p + 1) := mono (Nat.lt_succ_self p)
    have upper : V (p + 1) < V q := mono (by omega)
    have inside := second.1
    have between := first.2 (p + 1) (by omega) (by omega)
    omega

theorem IsNearest.unique (mono : StrictMono V) (first : IsNearest V N x p)
    (second : IsNearest V N x q) : p = q := by
  rcases Nat.lt_trichotomy p q with less | same | greater
  · exact absurd less (first.unique_of_lt mono second)
  · exact same
  · exact absurd greater (second.unique_of_lt mono first)

theorem isNearest_exact (mono : StrictMono V) (inside : p ≤ N) (exact_ : V p = x) :
    IsNearest V N x p := by
  refine ⟨inside, fun q _ other => .inl ?_⟩
  have apart : V q ≠ V p := fun same => other (mono.injective same)
  omega

theorem isNearest_last (mono : StrictMono V) (beyond : V N ≤ x) : IsNearest V N x N := by
  refine ⟨Nat.le_refl N, fun q le other => .inl ?_⟩
  have below : V q < V N := mono (Nat.lt_of_le_of_ne le other)
  omega

/-- Between two neighbours, the lower one. -/
theorem isNearest_lower_iff (mono : StrictMono V) (inside : p + 1 ≤ N) (low : V p ≤ x)
    (high : x ≤ V (p + 1)) :
    IsNearest V N x p ↔ 2 * x < V p + V (p + 1) ∨ (2 * x = V p + V (p + 1) ∧ p % 2 = 0) := by
  have apart : V p < V (p + 1) := mono (Nat.lt_succ_self p)
  constructor
  · rintro ⟨-, nearest⟩
    have near := nearest (p + 1) inside (Nat.succ_ne_self p)
    omega
  · intro lower
    refine ⟨Nat.le_of_succ_le inside, fun q le other => ?_⟩
    rcases Nat.lt_or_ge q p with less | ge
    · have below : V q < V p := mono less
      omega
    · have above : V (p + 1) ≤ V q := mono.monotone (by omega)
      omega

/-- Between two neighbours, the upper one. -/
theorem isNearest_upper_iff (mono : StrictMono V) (inside : p + 1 ≤ N) (low : V p ≤ x)
    (high : x ≤ V (p + 1)) :
    IsNearest V N x (p + 1) ↔ V p + V (p + 1) < 2 * x ∨ (2 * x = V p + V (p + 1) ∧ p % 2 = 1) := by
  have apart : V p < V (p + 1) := mono (Nat.lt_succ_self p)
  constructor
  · rintro ⟨-, nearest⟩
    have near := nearest p (Nat.le_of_succ_le inside) (Nat.ne_of_lt (Nat.lt_succ_self p))
    omega
  · intro upper
    refine ⟨inside, fun q le other => ?_⟩
    rcases Nat.lt_or_ge p q with greater | ge
    · have above : V (p + 1) < V q := mono (by omega)
      omega
    · have below : V q ≤ V p := mono.monotone ge
      omega

end ArkRuntime

/-!
## Doubles by their bit patterns

A double is its sign and its pattern, the number that the other 63 bits form. The patterns count the
magnitudes in their order: `scaled p` is the one with the pattern `p`, in units of the least positive
double, and `one` is the double 1 in these units. The pattern of infinity comes next to that of the
greatest finite double and stands for `2 ^ 1024` when a number is rounded. Greater patterns are not numbers.
-/

namespace ArkRuntime

namespace Binary64

variable {k q r s m p : Nat} {bits bits' : UInt64}

def infinity : Nat := 2047 * 2 ^ 52

/-- The magnitude of a pattern, in units of `2 ^ -1074`. -/
def scaled (p : Nat) : Nat :=
  if p < 2 ^ 52 then p else (2 ^ 52 + p % 2 ^ 52) * 2 ^ (p / 2 ^ 52 - 1)

def one : Nat := 2 ^ 1074

def negative (bits : UInt64) : Bool := decide (2 ^ 63 ≤ bits.toNat)

def pattern (bits : UInt64) : Nat := bits.toNat % 2 ^ 63

def isNaN (bits : UInt64) : Bool := decide (infinity < pattern bits)

def isFinite (bits : UInt64) : Bool := decide (pattern bits < infinity)

def signedScaled (bits : UInt64) : Int :=
  if negative bits then -(scaled (pattern bits) : Int) else scaled (pattern bits)

/-- The number that a finite double stands for. -/
def value (bits : UInt64) : ℚ := signedScaled bits / one

/-- The double that is nearest to an integer, with ties to even. -/
def NearestDouble (v : Int) (bits : UInt64) : Prop :=
  negative bits = decide (v < 0) ∧ IsNearest scaled infinity (v.natAbs * one) (pattern bits)

theorem one_pos : 0 < one := Nat.two_pow_pos 1074

/-! ### Magnitudes -/

/-- Significands from `2 ^ 52` to `2 ^ 53`, the last of which is the first one of the next exponent. -/
theorem scaled_normal (k : Nat) (low : 2 ^ 52 ≤ q) (high : q ≤ 2 ^ 53) :
    scaled (k * 2 ^ 52 + q) = q * 2 ^ k := by
  rcases Nat.lt_or_eq_of_le high with less | rfl
  · have exponent : (k * 2 ^ 52 + q) / 2 ^ 52 = k + 1 := by omega
    have fraction : (k * 2 ^ 52 + q) % 2 ^ 52 = q - 2 ^ 52 := by omega
    rw [scaled, if_neg (by omega), exponent, fraction, Nat.add_sub_cancel,
      Nat.add_sub_cancel' low]
  · have exponent : (k * 2 ^ 52 + 2 ^ 53) / 2 ^ 52 = k + 2 := by omega
    have fraction : (k * 2 ^ 52 + 2 ^ 53) % 2 ^ 52 = 0 := by omega
    rw [scaled, if_neg (by omega), exponent, fraction, show k + 2 - 1 = k + 1 from rfl,
      @Nat.pow_succ 2 k]
    omega

theorem normal_cases (le : 2 ^ 52 ≤ p) : ∃ k q, p = k * 2 ^ 52 + q ∧ 2 ^ 52 ≤ q ∧ q < 2 ^ 53 :=
  ⟨p / 2 ^ 52 - 1, 2 ^ 52 + p % 2 ^ 52, by omega, by omega, by omega⟩

theorem scaled_strictMono : StrictMono scaled := by
  apply strictMono_nat_of_lt_succ
  intro p
  rcases Nat.lt_or_ge p (2 ^ 52) with small | le
  · have here : scaled p = p := if_pos small
    rcases Nat.lt_or_ge (p + 1) (2 ^ 52) with small' | le'
    · have next : scaled (p + 1) = p + 1 := if_pos small'
      omega
    · have last : p + 1 = 0 * 2 ^ 52 + 2 ^ 52 := by omega
      have next := scaled_normal 0 (Nat.le_refl (2 ^ 52)) (by decide)
      rw [← last] at next
      omega
  · obtain ⟨k, q, rfl, low, high⟩ := normal_cases le
    rw [scaled_normal k low (Nat.le_of_lt high), Nat.add_assoc,
      scaled_normal k (Nat.le_succ_of_le low) high]
    exact Nat.mul_lt_mul_of_pos_right (Nat.lt_succ_self q) (Nat.two_pow_pos k)

/-! ### Rounding -/

/-- The pattern of the upper bits of an integer, or the next one, is the nearest. -/
theorem isNearest_truncated (parts : m = q * 2 ^ s + r) (rest : r < 2 ^ s) (low : 2 ^ 52 ≤ q)
    (high : q < 2 ^ 53) (fits : s ≤ 971) (up : Bool) :
    IsNearest scaled infinity (m * one) ((s + 1074) * 2 ^ 52 + q + up.toNat) ↔
      if up then 2 ^ s < 2 * r ∨ (2 * r = 2 ^ s ∧ q % 2 = 1)
      else 2 * r < 2 ^ s ∨ (2 * r = 2 ^ s ∧ q % 2 = 0) := by
  have here : scaled ((s + 1074) * 2 ^ 52 + q) = q * 2 ^ s * one := by
    rw [scaled_normal _ low (Nat.le_of_lt high), one, Nat.pow_add, Nat.mul_assoc]
  have next : scaled ((s + 1074) * 2 ^ 52 + q + 1) = (q + 1) * 2 ^ s * one := by
    rw [Nat.add_assoc, scaled_normal _ (Nat.le_succ_of_le low) high, one, Nat.pow_add, Nat.mul_assoc]
  have inside : (s + 1074) * 2 ^ 52 + q + 1 ≤ infinity := by
    rw [infinity]
    omega
  have split : (q + 1) * 2 ^ s = q * 2 ^ s + 2 ^ s := Nat.succ_mul q (2 ^ s)
  have under : scaled ((s + 1074) * 2 ^ 52 + q) ≤ m * one := by
    rw [here]
    exact Nat.mul_le_mul_right _ (by omega)
  have above : m * one ≤ scaled ((s + 1074) * 2 ^ 52 + q + 1) := by
    rw [next]
    exact Nat.mul_le_mul_right _ (by omega)
  have double : 2 * (m * one) = 2 * m * one := (Nat.mul_assoc 2 m one).symm
  have sum : scaled ((s + 1074) * 2 ^ 52 + q) + scaled ((s + 1074) * 2 ^ 52 + q + 1) =
      (2 * (q * 2 ^ s) + 2 ^ s) * one := by
    have twice : q * 2 ^ s + (q * 2 ^ s + 2 ^ s) = 2 * (q * 2 ^ s) + 2 ^ s := by omega
    rw [here, next, ← Nat.add_mul, split, twice]
  have parity : ((s + 1074) * 2 ^ 52 + q) % 2 = q % 2 := by omega
  cases up with
  | true =>
    rw [Bool.toNat_true, isNearest_upper_iff scaled_strictMono inside under above, sum, double, parity,
      Nat.mul_lt_mul_right one_pos, Nat.mul_left_inj (Nat.ne_of_gt one_pos), if_pos rfl, parts]
    omega
  | false =>
    rw [Bool.toNat_false, Nat.add_zero, isNearest_lower_iff scaled_strictMono inside under above, sum,
      double, parity, Nat.mul_lt_mul_right one_pos, Nat.mul_left_inj (Nat.ne_of_gt one_pos), parts]
    simp only [Bool.false_eq_true, if_false]
    omega

/-- An integer of at most 53 bits is a double. -/
theorem isNearest_small {width : Nat} (fits : width ≤ 53) (low : 2 ^ width ≤ 2 * m)
    (high : m < 2 ^ width) :
    IsNearest scaled infinity (m * one) ((width + 1021) * 2 ^ 52 + m * 2 ^ (53 - width)) := by
  have whole : 2 ^ width * 2 ^ (53 - width) = 2 ^ 53 := by
    rw [← Nat.pow_add, Nat.add_sub_cancel' fits]
  have lower : 2 ^ 52 ≤ m * 2 ^ (53 - width) := by
    have := Nat.mul_le_mul_right (2 ^ (53 - width)) low
    rw [whole, Nat.mul_assoc] at this
    omega
  have upper : m * 2 ^ (53 - width) ≤ 2 ^ 53 := by
    rw [← whole]
    exact Nat.mul_le_mul_right _ (Nat.le_of_lt high)
  have exponents : 53 - width + (width + 1021) = 1074 := by omega
  refine isNearest_exact scaled_strictMono (by rw [infinity]; omega) ?_
  rw [scaled_normal _ lower upper, Nat.mul_assoc, ← Nat.pow_add, exponents, one]

theorem toNat_eq (bits : UInt64) :
    bits.toNat = (if negative bits then 2 ^ 63 else 0) + pattern bits := by
  have word := bits.toNat_lt
  by_cases sign : 2 ^ 63 ≤ bits.toNat
  · rw [negative, decide_eq_true sign, if_pos rfl, pattern]
    omega
  · rw [negative, decide_eq_false sign, pattern]
    simp only [Bool.false_eq_true, if_false]
    omega

/-! ### Values -/

theorem value_eq_iff {v : Int} : value bits = v ↔ signedScaled bits = v * one := by
  have unit : (one : ℚ) ≠ 0 := Nat.cast_ne_zero.mpr (Nat.ne_of_gt one_pos)
  rw [value, div_eq_iff unit]
  exact_mod_cast Iff.rfl

theorem lt_value_iff {v : Int} : (v : ℚ) < value bits ↔ v * one < signedScaled bits := by
  have unit : (0 : ℚ) < one := Nat.cast_pos.mpr one_pos
  rw [value, lt_div_iff₀ unit]
  exact_mod_cast Iff.rfl

theorem natAbs_signedScaled (bits : UInt64) :
    (signedScaled bits).natAbs = scaled (pattern bits) := by
  unfold signedScaled
  split <;> simp

theorem scaled_pos_iff : 0 < scaled p ↔ p ≠ 0 := by
  have order : scaled 0 < scaled p ↔ 0 < p := scaled_strictMono.lt_iff_lt
  exact order.trans Nat.pos_iff_ne_zero

theorem signedScaled_neg_iff :
    signedScaled bits < 0 ↔ negative bits = true ∧ pattern bits ≠ 0 := by
  rw [← scaled_pos_iff, signedScaled]
  split_ifs with sign
  · simp only [sign, true_and]
    omega
  · simp only [sign, Bool.false_eq_true, false_and, iff_false]
    omega

theorem signedScaled_eq_zero_iff : signedScaled bits = 0 ↔ pattern bits = 0 := by
  rw [← Int.natAbs_eq_zero, natAbs_signedScaled, ← not_iff_not, ← ne_eq, ← Nat.pos_iff_ne_zero,
    scaled_pos_iff]

/-- A double that is an integer, by its magnitude and its sign. -/
theorem scaled_of_value {v : Int} (whole : value bits = v) :
    scaled (pattern bits) = v.natAbs * one ∧ (v ≠ 0 → negative bits = decide (v < 0)) := by
  have units := value_eq_iff.mp whole
  refine ⟨?_, fun nonzero => ?_⟩
  · rw [← natAbs_signedScaled, units, Int.natAbs_mul, Int.natAbs_natCast]
  · have unit : (0 : Int) < one := Int.natCast_pos.mpr one_pos
    rw [signedScaled] at units
    rcases Int.lt_or_gt_of_ne nonzero with below | above
    · have product := Int.mul_neg_of_neg_of_pos below unit
      have sign : negative bits = true := by
        by_contra positive
        rw [if_neg positive] at units
        omega
      rw [sign, decide_eq_true below]
    · have product := Int.mul_pos above unit
      have sign : negative bits = false := by
        by_contra negative
        rw [if_pos (by simpa using negative)] at units
        omega
      rw [sign, decide_eq_false (by omega)]

/-- A double that is an integer is the nearest to it. -/
theorem nearestDouble_of_value {v : Int} (finite : isFinite bits = true) (whole : value bits = v)
    (nonzero : v ≠ 0) : NearestDouble v bits := by
  obtain ⟨magnitude, sign⟩ := scaled_of_value whole
  rw [isFinite, decide_eq_true_iff] at finite
  exact ⟨sign nonzero, isNearest_exact scaled_strictMono (Nat.le_of_lt finite) magnitude⟩

theorem pattern_of_value_zero (whole : value bits = 0) : pattern bits = 0 := by
  have zero : value bits = (0 : Int) := by
    rw [whole]
    rfl
  have magnitude := (scaled_of_value zero).1
  rw [Int.natAbs_zero, Nat.zero_mul] at magnitude
  exact scaled_strictMono.injective (magnitude.trans (show 0 = scaled 0 from rfl))

theorem fields_of_toNat {sign : Bool} (parts : bits.toNat = (if sign then 2 ^ 63 else 0) + p)
    (small : p < 2 ^ 63) : negative bits = sign ∧ pattern bits = p := by
  cases sign with
  | false =>
    simp only [Bool.false_eq_true, if_false] at parts
    exact ⟨decide_eq_false (by omega), by rw [pattern]; omega⟩
  | true =>
    simp only [if_true] at parts
    exact ⟨decide_eq_true (by omega), by rw [pattern]; omega⟩

theorem NearestDouble.unique {v : Int} (first : NearestDouble v bits) (second : NearestDouble v bits') :
    bits = bits' := by
  apply UInt64.toNat_inj.mp
  rw [toNat_eq bits, toNat_eq bits', first.1, second.1, first.2.unique scaled_strictMono second.2]

end Binary64

end ArkRuntime
