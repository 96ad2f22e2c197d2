import ArkRuntime.Compiler.RangeInfo
import Mathlib.Tactic.Linarith

/-!
# Which operators of `RangeInfo` are sound

A range stands for the values between its bounds. Every operator contains the
results on its operands' values, except `operator%` on a divisor range that
starts at `INT32_MIN`, whose magnitude is undefined.
-/

namespace ArkRuntime.RangeInfo

instance : Membership Int RangeInfo where
  mem range value := range.min_ ≤ value ∧ value ≤ range.max_

variable {value lower upper : Int}

theorem mem_iff {range : RangeInfo} :
    value ∈ range ↔ range.min_ ≤ value ∧ value ≤ range.max_ := Iff.rfl

instance (range : RangeInfo) (value : Int) : Decidable (value ∈ range) :=
  inferInstanceAs (Decidable (range.min_ ≤ value ∧ value ≤ range.max_))

/-- An operator has a result, and the value is in it. -/
def Holds (result : Option RangeInfo) (value : Int) : Prop :=
  ∃ range, result = some range ∧ value ∈ range

theorem fits_of_mem {range : RangeInfo} (member : value ∈ range) : FitsInt32 value :=
  ⟨le_trans range.fits_min.1 member.1, le_trans member.2 range.fits_max.2⟩

theorem make_min (lowerFits : FitsInt32 lower) (upperFits : FitsInt32 upper) :
    (make lower upper).min_ = if lower = upper then lower else lowerBound lower := by
  have built : (make lower upper).min_ =
      if wrap32 lower = wrap32 upper then wrap32 lower else lowerBound (wrap32 lower) := by
    unfold make
    split <;> rfl
  rw [built, wrap32_of_fits lowerFits, wrap32_of_fits upperFits]

theorem make_max (lowerFits : FitsInt32 lower) (upperFits : FitsInt32 upper) :
    (make lower upper).max_ = if lower = upper then upper else upperBound upper := by
  have built : (make lower upper).max_ =
      if wrap32 lower = wrap32 upper then wrap32 upper else upperBound (wrap32 upper) := by
    unfold make
    split <;> rfl
  rw [built, wrap32_of_fits lowerFits, wrap32_of_fits upperFits]

theorem make_min_le (lowerFits : FitsInt32 lower) (upperFits : FitsInt32 upper) :
    (make lower upper).min_ ≤ lower := by
  rw [make_min lowerFits upperFits]
  split
  · exact le_refl lower
  · exact lowerBound_le lower

theorem le_make_max (lowerFits : FitsInt32 lower) (upperFits : FitsInt32 upper) :
    upper ≤ (make lower upper).max_ := by
  rw [make_max lowerFits upperFits]
  split
  · exact le_refl upper
  · exact le_upperBound upper

/-- Rounding is outwards: a range holds every value between the bounds it is built from. -/
theorem mem_make (lowerFits : FitsInt32 lower) (upperFits : FitsInt32 upper) (above : lower ≤ value)
    (below : value ≤ upper) : value ∈ make lower upper :=
  ⟨le_trans (make_min_le lowerFits upperFits) above,
    le_trans below (le_make_max lowerFits upperFits)⟩

/-- A range is unchanged by building it again. -/
theorem make_self (range : RangeInfo) : make range.min_ range.max_ = range := by
  ext
  · rw [make_min range.fits_min range.fits_max]
    split
    · rfl
    · rename_i apart
      rcases range.built with single | table
      · exact absurd single.1 apart
      · exact lowerBound_of_mem table.1
  · rw [make_max range.fits_min range.fits_max]
    split
    · rfl
    · rename_i apart
      rcases range.built with single | table
      · exact absurd single.1 apart
      · exact upperBound_of_mem table.2

section Arithmetic

variable {A B : RangeInfo} {a b : Int}

theorem maybeAddOverflow_iff : A.maybeAddOverflow B = true ↔ int32Max < A.max_ + B.max_ := by
  have fits := A.fits_max
  unfold FitsInt32 at fits
  unfold maybeAddOverflow
  simp only [Bool.and_eq_true, decide_eq_true_eq]
  omega

theorem maybeAddUnderflow_iff : A.maybeAddUnderflow B = true ↔ A.min_ + B.min_ < int32Min := by
  have fits := A.fits_min
  unfold FitsInt32 at fits
  unfold maybeAddUnderflow
  simp only [Bool.and_eq_true, decide_eq_true_eq]
  omega

theorem maybeSubOverflow_iff : A.maybeSubOverflow B = true ↔ int32Max < A.max_ - B.min_ := by
  have fits := A.fits_max
  unfold FitsInt32 at fits
  unfold maybeSubOverflow
  simp only [Bool.and_eq_true, decide_eq_true_eq]
  omega

theorem maybeSubUnderflow_iff : A.maybeSubUnderflow B = true ↔ A.min_ - B.max_ < int32Min := by
  have fits := A.fits_min
  unfold FitsInt32 at fits
  unfold maybeSubUnderflow
  simp only [Bool.and_eq_true, decide_eq_true_eq]
  omega

/-- Where the sum is not said to overflow, no pair of values overflows. -/
theorem add_fits (member : a ∈ A) (memberRhs : b ∈ B)
    (safe : A.maybeAddOverflowOrUnderflow B = false) : FitsInt32 (a + b) := by
  unfold maybeAddOverflowOrUnderflow at safe
  rw [Bool.or_eq_false_iff, ← Bool.not_eq_true, ← Bool.not_eq_true, maybeAddOverflow_iff,
    maybeAddUnderflow_iff] at safe
  rw [mem_iff] at member memberRhs
  unfold FitsInt32
  omega

theorem sub_fits (member : a ∈ A) (memberRhs : b ∈ B)
    (safe : A.maybeSubOverflowOrUnderflow B = false) : FitsInt32 (a - b) := by
  unfold maybeSubOverflowOrUnderflow at safe
  rw [Bool.or_eq_false_iff, ← Bool.not_eq_true, ← Bool.not_eq_true, maybeSubOverflow_iff,
    maybeSubUnderflow_iff] at safe
  rw [mem_iff] at member memberRhs
  unfold FitsInt32
  omega

/-- A lower bound guarded by its underflow test is cut at `INT32_MIN`. -/
theorem cut_below {underflows : Bool} {value : Int}
    (test : underflows = true ↔ value < int32Min) (low : value ≤ int32Max) :
    (if underflows then some int32Min else checked32 value) = some (max int32Min value) := by
  split
  · rename_i under
    rw [max_eq_left (le_of_lt (test.1 under))]
  · rename_i inside
    rw [test, not_lt] at inside
    rw [max_eq_right inside, checked32_of_fits ⟨inside, low⟩]

/-- An upper bound guarded by its overflow test is cut at `INT32_MAX`. -/
theorem cut_above {overflows : Bool} {value : Int}
    (test : overflows = true ↔ int32Max < value) (high : int32Min ≤ value) :
    (if overflows then some int32Max else checked32 value) = some (min int32Max value) := by
  split
  · rename_i above
    rw [min_eq_left (le_of_lt (test.1 above))]
  · rename_i inside
    rw [test, not_lt] at inside
    rw [min_eq_right inside, checked32_of_fits ⟨high, inside⟩]

/-- Where some sum of the two ranges may fit, the bounds of `operator+` are the exact
    ones, cut at the ends of int32; otherwise one of them is undefined. -/
theorem add_eq (low : A.min_ + B.min_ ≤ int32Max) (high : int32Min ≤ A.max_ + B.max_) :
    A.add B = some (make (max int32Min (A.min_ + B.min_)) (min int32Max (A.max_ + B.max_))) := by
  unfold add
  rw [cut_below maybeAddUnderflow_iff low, cut_above maybeAddOverflow_iff high]
  rfl

theorem sub_eq (low : A.min_ - B.max_ ≤ int32Max) (high : int32Min ≤ A.max_ - B.min_) :
    A.sub B = some (make (max int32Min (A.min_ - B.max_)) (min int32Max (A.max_ - B.min_))) := by
  unfold sub
  rw [cut_below maybeSubUnderflow_iff low, cut_above maybeSubOverflow_iff high]
  rfl

theorem add_sound (member : a ∈ A) (memberRhs : b ∈ B) (fits : FitsInt32 (a + b)) :
    Holds (A.add B) (a + b) := by
  rw [mem_iff] at member memberRhs
  unfold FitsInt32 at fits
  have ordered : int32Min ≤ int32Max := by decide
  refine ⟨_, add_eq (by omega) (by omega), ?_⟩
  apply mem_make <;> (try unfold FitsInt32) <;> omega

theorem sub_sound (member : a ∈ A) (memberRhs : b ∈ B) (fits : FitsInt32 (a - b)) :
    Holds (A.sub B) (a - b) := by
  rw [mem_iff] at member memberRhs
  unfold FitsInt32 at fits
  have ordered : int32Min ≤ int32Max := by decide
  refine ⟨_, sub_eq (by omega) (by omega), ?_⟩
  apply mem_make <;> (try unfold FitsInt32) <;> omega

theorem complement_eq (value : Int) : ~~~value = -1 - value := by
  cases value with
  | ofNat n =>
    show Int.negSucc n = -1 - (n : Int)
    omega
  | negSucc n =>
    show (n : Int) = -1 - Int.negSucc n
    omega

/-- The complement reverses a range without leaving int32. -/
theorem not_sound (member : a ∈ A) : ~~~a ∈ A.not := by
  have fitsMin := A.fits_min
  have fitsMax := A.fits_max
  rw [mem_iff] at member
  unfold not
  simp only [complement_eq]
  unfold FitsInt32 int32Min int32Max at fitsMin fitsMax
  apply mem_make <;> (try unfold FitsInt32 int32Min int32Max) <;> omega

/-- The overflow test of a product divides with truncation and is exact. -/
theorem mulOverflows_iff {lhs rhs : Int} : mulOverflows lhs rhs = true ↔ int32Max < lhs * rhs := by
  have positive : ∀ x y : Int, 0 < y → (Int.tdiv int32Max y < x ↔ int32Max < x * y) := by
    intro x y above
    rw [Int.tdiv_eq_ediv_of_nonneg (by decide)]
    exact Int.ediv_lt_iff_lt_mul above
  unfold mulOverflows
  simp only [Bool.or_eq_true, Bool.and_eq_true, decide_eq_true_eq, gt_iff_lt]
  have limit : (0 : Int) < int32Max := by decide
  rcases lt_trichotomy rhs 0 with below | zero | above
  · have flip := positive (-lhs) (-rhs) (by omega)
    rw [Int.tdiv_neg, neg_mul_neg] at flip
    constructor
    · rintro (⟨⟨_, wrong⟩, _⟩ | ⟨_, large⟩)
      · omega
      · exact flip.1 (by omega)
    · intro large
      have negative : lhs < 0 := by
        by_contra sign
        have small := mul_nonpos_of_nonneg_of_nonpos (not_lt.1 sign) (le_of_lt below)
        omega
      have quotient := flip.2 large
      exact Or.inr ⟨⟨negative, below⟩, by omega⟩
  · rw [zero, mul_zero]
    omega
  · have direct := positive lhs rhs above
    constructor
    · rintro (⟨_, large⟩ | ⟨⟨_, wrong⟩, _⟩)
      · exact direct.1 large
      · omega
    · intro large
      have sign : 0 < lhs := by
        by_contra nonpos
        have small := mul_nonpos_of_nonpos_of_nonneg (not_lt.1 nonpos) (le_of_lt above)
        omega
      exact Or.inl ⟨⟨sign, above⟩, direct.2 large⟩

theorem mulUnderflows_iff {lhs rhs : Int} : mulUnderflows lhs rhs = true ↔ lhs * rhs < int32Min := by
  have magnitude : ∀ x y : Int, 0 < y → (x < Int.tdiv int32Min y ↔ x * y < int32Min) := by
    intro x y above
    have quotient : Int.tdiv int32Min y = -(2147483648 / y) := by
      rw [show int32Min = -2147483648 from rfl, Int.neg_tdiv, Int.tdiv_eq_ediv_of_nonneg (by decide)]
    have direct := @Int.ediv_lt_iff_lt_mul 2147483648 (-x) y above
    rw [neg_mul] at direct
    rw [quotient, show int32Min = -2147483648 from rfl]
    omega
  unfold mulUnderflows
  simp only [Bool.or_eq_true, Bool.and_eq_true, decide_eq_true_eq, gt_iff_lt]
  have limit : int32Min < 0 := by decide
  constructor
  · rintro (⟨⟨positive, _⟩, large⟩ | ⟨⟨_, positive⟩, large⟩)
    · rw [mul_comm]
      exact (magnitude rhs lhs positive).1 large
    · exact (magnitude lhs rhs positive).1 large
  · intro large
    rcases lt_trichotomy rhs 0 with below | zero | above
    · have sign : 0 < lhs := by
        by_contra nonpos
        have small := mul_nonneg_of_nonpos_of_nonpos (not_lt.1 nonpos) (le_of_lt below)
        omega
      rw [mul_comm] at large
      exact Or.inl ⟨⟨sign, below⟩, (magnitude rhs lhs sign).2 large⟩
    · rw [zero, mul_zero] at large
      omega
    · have sign : lhs < 0 := by
        by_contra nonneg
        have small := mul_nonneg (not_lt.1 nonneg) (le_of_lt above)
        omega
      exact Or.inr ⟨⟨sign, above⟩, (magnitude lhs rhs above).2 large⟩

/-- A value cut to the ends of int32. -/
def clamp32 (value : Int) : Int := max int32Min (min int32Max value)

theorem fitsInt32_clamp32 (value : Int) : FitsInt32 (clamp32 value) := by
  unfold FitsInt32 clamp32 int32Min int32Max
  omega

theorem clamp32_of_fits {value : Int} (fits : FitsInt32 value) : clamp32 value = value := by
  unfold FitsInt32 at fits
  unfold clamp32
  omega

theorem clamp32_mono {value other : Int} (less : value ≤ other) : clamp32 value ≤ clamp32 other := by
  unfold clamp32
  omega

theorem tryMul_eq (lhs rhs : Int) : tryMul lhs rhs = clamp32 (lhs * rhs) := by
  have ordered : int32Min ≤ int32Max := by decide
  unfold tryMul
  split
  · rename_i large
    rw [mulOverflows_iff] at large
    unfold clamp32
    omega
  · rename_i notLarge
    rw [mulOverflows_iff, not_lt] at notLarge
    split
    · rename_i small
      rw [mulUnderflows_iff] at small
      unfold clamp32
      omega
    · rename_i notSmall
      rw [mulUnderflows_iff, not_lt] at notSmall
      rw [wrap32_of_fits ⟨notSmall, notLarge⟩, clamp32_of_fits ⟨notSmall, notLarge⟩]

/-- A product with a fixed factor lies between the products of the ends. -/
theorem mul_between {lower value upper factor : Int} (above : lower ≤ value) (below : value ≤ upper) :
    min (lower * factor) (upper * factor) ≤ value * factor ∧
      value * factor ≤ max (lower * factor) (upper * factor) := by
  rcases le_total 0 factor with nonneg | nonpos
  · exact ⟨min_le_of_left_le (mul_le_mul_of_nonneg_right above nonneg),
      le_max_of_le_right (mul_le_mul_of_nonneg_right below nonneg)⟩
  · exact ⟨min_le_of_right_le (mul_le_mul_of_nonpos_right below nonpos),
      le_max_of_le_left (mul_le_mul_of_nonpos_right above nonpos)⟩

theorem getMinMulResult_eq (A B : RangeInfo) : A.getMinMulResult B =
    clamp32 (min (min (A.min_ * B.min_) (A.min_ * B.max_))
      (min (A.max_ * B.min_) (A.max_ * B.max_))) := by
  have monotone : Monotone clamp32 := fun _ _ less => clamp32_mono less
  unfold getMinMulResult
  simp only [tryMul_eq, monotone.map_min]

theorem getMaxMulResult_eq (A B : RangeInfo) : A.getMaxMulResult B =
    clamp32 (max (max (A.min_ * B.min_) (A.min_ * B.max_))
      (max (A.max_ * B.min_) (A.max_ * B.max_))) := by
  have monotone : Monotone clamp32 := fun _ _ less => clamp32_mono less
  unfold getMaxMulResult
  simp only [tryMul_eq, monotone.map_max]

/-- A product of two ranges lies between the products of their corners. -/
theorem mul_corners (member : a ∈ A) (memberRhs : b ∈ B) :
    min (min (A.min_ * B.min_) (A.min_ * B.max_)) (min (A.max_ * B.min_) (A.max_ * B.max_)) ≤ a * b ∧
      a * b ≤ max (max (A.min_ * B.min_) (A.min_ * B.max_))
        (max (A.max_ * B.min_) (A.max_ * B.max_)) := by
  have first := @mul_between A.min_ a A.max_ b member.1 member.2
  have atMin := @mul_between B.min_ b B.max_ A.min_ memberRhs.1 memberRhs.2
  have atMax := @mul_between B.min_ b B.max_ A.max_ memberRhs.1 memberRhs.2
  simp only [mul_comm B.min_, mul_comm B.max_, mul_comm b] at atMin atMax
  omega

theorem mul_sound (member : a ∈ A) (memberRhs : b ∈ B) (fits : FitsInt32 (a * b)) :
    a * b ∈ A.mul B := by
  have corners := mul_corners member memberRhs
  unfold mul
  rw [getMinMulResult_eq, getMaxMulResult_eq]
  apply mem_make (fitsInt32_clamp32 _) (fitsInt32_clamp32 _)
  · exact le_of_le_of_eq (clamp32_mono corners.1) (clamp32_of_fits fits)
  · exact le_of_eq_of_le (clamp32_of_fits fits).symm (clamp32_mono corners.2)

/-- Where no overflow is announced, the corners of the product fit: the two with equal
    ends above, the two with opposite ends below. -/
theorem mul_fits (member : a ∈ A) (memberRhs : b ∈ B)
    (safe : A.maybeMulOverflowOrUnderflow B = false) : FitsInt32 (a * b) := by
  unfold maybeMulOverflowOrUnderflow maybeMulOverflow maybeMulUnderflow at safe
  rw [Bool.or_eq_false_iff, Bool.or_eq_false_iff, Bool.or_eq_false_iff] at safe
  simp only [← Bool.not_eq_true, mulOverflows_iff, mulUnderflows_iff, not_lt] at safe
  obtain ⟨⟨maxMax, minMin⟩, minMax, maxMin⟩ := safe
  rw [mem_iff] at member memberRhs
  have least : int32Min ≤ 0 := by decide
  have greatest : (0 : Int) ≤ int32Max := by decide
  rcases le_total 0 a with nonneg | nonpos <;> rcases le_total 0 b with nonnegRhs | nonposRhs
  · have product := mul_nonneg nonneg nonnegRhs
    have corner := mul_le_mul member.2 memberRhs.2 nonnegRhs (le_trans nonneg member.2)
    exact ⟨le_trans least product, le_trans corner maxMax⟩
  · have product := mul_nonpos_of_nonneg_of_nonpos nonneg nonposRhs
    have corner : A.max_ * B.min_ ≤ a * b :=
      calc A.max_ * B.min_ ≤ a * B.min_ :=
            mul_le_mul_of_nonpos_right member.2 (le_trans memberRhs.1 nonposRhs)
        _ ≤ a * b := mul_le_mul_of_nonneg_left memberRhs.1 nonneg
    exact ⟨le_trans maxMin corner, le_trans product greatest⟩
  · have product := mul_nonpos_of_nonpos_of_nonneg nonpos nonnegRhs
    have corner : A.min_ * B.max_ ≤ a * b :=
      calc A.min_ * B.max_ ≤ a * B.max_ :=
            mul_le_mul_of_nonneg_right member.1 (le_trans nonnegRhs memberRhs.2)
        _ ≤ a * b := mul_le_mul_of_nonpos_left memberRhs.2 nonpos
    exact ⟨le_trans minMax corner, le_trans product greatest⟩
  · have product := mul_nonneg_of_nonpos_of_nonpos nonpos nonposRhs
    have corner : a * b ≤ A.min_ * B.min_ :=
      calc a * b ≤ A.min_ * b := mul_le_mul_of_nonpos_right member.1 nonposRhs
        _ ≤ A.min_ * B.min_ :=
            mul_le_mul_of_nonpos_left memberRhs.1 (le_trans member.1 nonpos)
    exact ⟨le_trans least product, le_trans corner minMin⟩

end Arithmetic

section Shifts

variable {A K : RangeInfo} {a k : Int}

/-- `a >> k`: only the low five bits of the count are used. -/
def ashrValue (a k : Int) : Int := a >>> shiftBits k

/-- `a >>> k`, an unsigned number. -/
def shrValue (a k : Int) : Nat := toUInt32 a >>> shiftBits k

variable {x : Int}

theorem shiftRight_mono {y : Int} (count : Nat) (less : x ≤ y) : x >>> count ≤ y >>> count := by
  rw [Int.shiftRight_eq_div_pow, Int.shiftRight_eq_div_pow]
  exact Int.ediv_le_ediv (by positivity) less

/-- An arithmetic shift moves a value towards zero or `-1`. -/
theorem shiftRight_fits (count : Nat) (fits : FitsInt32 x) : FitsInt32 (x >>> count) := by
  have least : int32Min ≤ 0 := by decide
  have greatest : (0 : Int) ≤ int32Max := by decide
  rcases le_total 0 x with nonneg | nonpos
  · exact ⟨le_trans least (Int.le_shiftRight_of_nonneg nonneg),
      le_trans (Int.shiftRight_le_of_nonneg nonneg) fits.2⟩
  · exact ⟨le_trans fits.1 (Int.le_shiftRight_of_nonpos nonpos),
      le_trans (Int.shiftRight_le_of_nonpos nonpos) greatest⟩

theorem ashr_sound (member : a ∈ A) (constant : K.min_ = K.max_) (count : k ∈ K) :
    ashrValue a k ∈ A.ashr K := by
  have same : k = K.max_ := le_antisymm count.2 (constant ▸ count.1)
  unfold ashrValue ashr
  rw [same]
  exact mem_make (shiftRight_fits _ A.fits_min) (shiftRight_fits _ A.fits_max)
    (shiftRight_mono _ member.1) (shiftRight_mono _ member.2)

/-- The value of a range whose unsigned reading is smallest. -/
def unsignedLow (A : RangeInfo) : Int := if A.max_ ≥ 0 then max 0 A.min_ else A.min_

/-- The value of a range whose unsigned reading is largest. -/
def unsignedHigh (A : RangeInfo) : Int := if A.min_ < 0 then min (-1) A.max_ else A.max_

theorem fits_unsignedLow (A : RangeInfo) : FitsInt32 A.unsignedLow := by
  have fitsMin := A.fits_min
  have fitsMax := A.fits_max
  unfold FitsInt32 int32Min int32Max at *
  unfold unsignedLow
  split <;> omega

theorem fits_unsignedHigh (A : RangeInfo) : FitsInt32 A.unsignedHigh := by
  have fitsMin := A.fits_min
  have fitsMax := A.fits_max
  unfold FitsInt32 int32Min int32Max at *
  unfold unsignedHigh
  split <;> omega

/-- Read as an unsigned number a value lies between the two ends `SHR` picks: the
    negative values come after the others. -/
theorem toUInt32_between (member : a ∈ A) :
    toUInt32 A.unsignedLow ≤ toUInt32 a ∧ toUInt32 a ≤ toUInt32 A.unsignedHigh := by
  have fitsMin := A.fits_min
  have fitsMax := A.fits_max
  rw [mem_iff] at member
  unfold FitsInt32 int32Min int32Max at fitsMin fitsMax
  unfold toUInt32 unsignedLow unsignedHigh
  constructor <;> split <;> omega

theorem shiftRight_half {x count : Nat} (bound : x < 4294967296) (shifted : count ≠ 0) :
    x >>> count < 2147483648 := by
  rw [Nat.shiftRight_eq_div_pow]
  have two : 2 ≤ 2 ^ count := by
    calc 2 = 2 ^ 1 := rfl
      _ ≤ 2 ^ count := Nat.pow_le_pow_right (by decide) (Nat.one_le_iff_ne_zero.2 shifted)
  calc x / 2 ^ count ≤ x / 2 := Nat.div_le_div_left two (by decide)
    _ < 2147483648 := by omega

theorem toUInt32_lt (a : Int) : toUInt32 a < 4294967296 := by
  unfold toUInt32
  omega

/-- A shifted value has its sign bit cleared, unless the count is zero and the value negative. -/
theorem shr_fits_of {count : Nat} (fits : FitsInt32 x) (clear : count ≠ 0 ∨ 0 ≤ x) :
    FitsInt32 (toUInt32 x >>> count : Nat) := by
  have limit := toUInt32_lt x
  unfold FitsInt32 int32Min int32Max at *
  by_cases shifted : count = 0
  · rw [shifted, Nat.shiftRight_zero]
    unfold toUInt32
    omega
  · have half := shiftRight_half limit shifted
    generalize toUInt32 x >>> count = result at half ⊢
    omega

theorem maybeShrOverflow_iff (constant : K.min_ = K.max_) :
    A.maybeShrOverflow K = true ↔ shiftBits K.max_ = 0 ∧ A.min_ < 0 := by
  unfold maybeShrOverflow
  rw [if_neg (by simpa using constant.symm), Bool.and_eq_true, beq_iff_eq, decide_eq_true_eq]

/-- Without an announced overflow the two ends of `SHR` are the shifted extremes, and fit. -/
theorem shr_eq (ordered : A.min_ ≤ A.max_) (constant : K.min_ = K.max_)
    (safe : A.maybeShrOverflow K = false) :
    A.shr K = make (toUInt32 A.unsignedLow >>> shiftBits K.max_ : Nat)
        (toUInt32 A.unsignedHigh >>> shiftBits K.max_ : Nat) ∧
      FitsInt32 (toUInt32 A.unsignedLow >>> shiftBits K.max_ : Nat) ∧
      FitsInt32 (toUInt32 A.unsignedHigh >>> shiftBits K.max_ : Nat) := by
  have clear : shiftBits K.max_ ≠ 0 ∨ 0 ≤ A.min_ := by
    have quiet := mt (maybeShrOverflow_iff constant).2 (by rw [safe]; exact Bool.false_ne_true)
    omega
  have low : FitsInt32 (toUInt32 A.unsignedLow >>> shiftBits K.max_ : Nat) := by
    apply shr_fits_of A.fits_unsignedLow
    unfold unsignedLow
    omega
  have high : FitsInt32 (toUInt32 A.unsignedHigh >>> shiftBits K.max_ : Nat) := by
    apply shr_fits_of A.fits_unsignedHigh
    unfold unsignedHigh
    omega
  refine ⟨?_, low, high⟩
  unfold shr
  rw [if_neg (by rw [safe]; exact Bool.false_ne_true)]
  show make (wrap32 (toUInt32 A.unsignedLow >>> shiftBits K.max_ : Nat))
    (wrap32 (toUInt32 A.unsignedHigh >>> shiftBits K.max_ : Nat)) = _
  rw [wrap32_of_fits low, wrap32_of_fits high]

theorem shr_sound (member : a ∈ A) (constant : K.min_ = K.max_) (count : k ∈ K)
    (fits : FitsInt32 (shrValue a k)) : (shrValue a k : Int) ∈ A.shr K := by
  have same : k = K.max_ := le_antisymm count.2 (constant ▸ count.1)
  unfold shrValue at fits ⊢
  rw [same] at fits ⊢
  cases overflow : A.maybeShrOverflow K with
  | true =>
    -- a count of zero: a negative value stays above int32, so the value is its own result
    have fitsMax := A.fits_max
    have fitsValue := fits_of_mem member
    rw [mem_iff] at member
    rw [((maybeShrOverflow_iff constant).1 overflow).1, Nat.shiftRight_zero] at fits ⊢
    have itself : (toUInt32 a : Int) = a ∧ 0 ≤ a := by
      unfold FitsInt32 int32Min int32Max at *
      unfold toUInt32 at *
      omega
    unfold shr
    rw [if_pos overflow, itself.1]
    apply mem_make (by decide) _ itself.2 (le_trans member.2 (le_max_right 0 A.max_))
    unfold FitsInt32 int32Min int32Max at *
    omega
  | false =>
    obtain ⟨shape, low, high⟩ := shr_eq (le_trans member.1 member.2) constant overflow
    obtain ⟨above, below⟩ := toUInt32_between member
    rw [shape]
    apply mem_make low high
    · exact Int.ofNat_le.2 (by simpa only [Nat.shiftRight_eq_div_pow] using Nat.div_le_div_right above)
    · exact Int.ofNat_le.2 (by simpa only [Nat.shiftRight_eq_div_pow] using Nat.div_le_div_right below)

theorem shr_fits (member : a ∈ A) (count : k ∈ K) (safe : A.maybeShrOverflow K = false) :
    FitsInt32 (shrValue a k) := by
  have constant : K.min_ = K.max_ := by
    by_contra varies
    unfold maybeShrOverflow at safe
    rw [if_pos (fun same => varies same.symm)] at safe
    cases safe
  have same : k = K.max_ := le_antisymm count.2 (constant ▸ count.1)
  have clear : shiftBits K.max_ ≠ 0 ∨ 0 ≤ A.min_ := by
    have quiet := mt (maybeShrOverflow_iff constant).2 (by rw [safe]; exact Bool.false_ne_true)
    omega
  unfold shrValue
  rw [same]
  apply shr_fits_of (fits_of_mem member)
  rw [mem_iff] at member
  omega

end Shifts
end ArkRuntime.RangeInfo
