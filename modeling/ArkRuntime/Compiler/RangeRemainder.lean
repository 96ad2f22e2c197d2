import ArkRuntime.Compiler.RangeSound

/-!
# The remainder of two ranges, and which operators are sound

`operator%` bounds a remainder by the largest magnitude of the divisor range. The
magnitude of `INT32_MIN` is undefined, and with it every remainder by a divisor
range that starts there.
-/

namespace ArkRuntime.RangeInfo

variable {A B : RangeInfo} {a b : Int}

/-- A pair of table bounds is not rounded again. -/
theorem make_of_mem {lower upper : Int} (lowerIn : lower ∈ rangeBounds)
    (upperIn : upper ∈ rangeBounds) :
    (make lower upper).min_ = lower ∧ (make lower upper).max_ = upper := by
  have same := make_self ⟨lower, upper, Or.inr ⟨lowerIn, upperIn⟩⟩
  exact ⟨congrArg min_ same, congrArg max_ same⟩

theorem zero_mem_rangeBounds : (0 : Int) ∈ rangeBounds := by decide

/-- The range from zero up to a bound: both ends are in the table. -/
theorem make_zero_left {upper : Int} (fits : FitsInt32 upper) :
    (make 0 upper).min_ = 0 ∧ (make 0 upper).max_ = upperBound upper := by
  rw [make_min (by decide) fits, make_max (by decide) fits, lowerBound_of_mem zero_mem_rangeBounds]
  by_cases zero : 0 = upper
  · rw [if_pos zero, if_pos zero, ← zero, upperBound_of_mem zero_mem_rangeBounds]
    exact ⟨rfl, rfl⟩
  · rw [if_neg zero, if_neg zero]
    exact ⟨rfl, rfl⟩

theorem make_zero_right {lower : Int} (fits : FitsInt32 lower) :
    (make lower 0).min_ = lowerBound lower ∧ (make lower 0).max_ = 0 := by
  rw [make_min fits (by decide), make_max fits (by decide), upperBound_of_mem zero_mem_rangeBounds]
  by_cases zero : lower = 0
  · rw [if_pos zero, if_pos zero, zero, lowerBound_of_mem zero_mem_rangeBounds]
    exact ⟨rfl, rfl⟩
  · rw [if_neg zero, if_neg zero]
    exact ⟨rfl, rfl⟩

/-- The bounds of `operator%`: each side is opened only where the dividend reaches it. -/
theorem remainders_bounds {nmax : Int} (positive : 0 < nmax) (fits : nmax ≤ int32Max) :
    (A.remainders nmax).min_ = (if A.min_ < 0 then lowerBound (-nmax + 1) else 0) ∧
      (A.remainders nmax).max_ = (if A.max_ > 0 then upperBound (nmax - 1) else 0) := by
  unfold int32Max at fits
  have highFits : FitsInt32 (nmax - 1) := by
    unfold FitsInt32 int32Min int32Max
    omega
  have lowFits : FitsInt32 (-nmax + 1) := by
    unfold FitsInt32 int32Min int32Max
    omega
  have highMem := upperBound_mem highFits
  have lowMem := lowerBound_mem lowFits
  have highPos : 0 ≤ upperBound (nmax - 1) := le_trans (by omega) (le_upperBound (nmax - 1))
  have lowNeg : lowerBound (-nmax + 1) ≤ 0 := le_trans (lowerBound_le (-nmax + 1)) (by omega)
  have zero := make_of_mem zero_mem_rangeBounds zero_mem_rangeBounds
  have above : (make 0 0).union (make 0 (nmax - 1)) = make 0 (upperBound (nmax - 1)) := by
    unfold union
    rw [zero.1, zero.2, (make_zero_left highFits).1, (make_zero_left highFits).2, min_self,
      max_eq_right highPos]
  have below : (make 0 0).union (make (-nmax + 1) 0) = make (lowerBound (-nmax + 1)) 0 := by
    unfold union
    rw [zero.1, zero.2, (make_zero_right lowFits).1, (make_zero_right lowFits).2, max_self,
      min_eq_right lowNeg]
  have upper := make_of_mem zero_mem_rangeBounds highMem
  have both : (make 0 (upperBound (nmax - 1))).union (make (-nmax + 1) 0) =
      make (lowerBound (-nmax + 1)) (upperBound (nmax - 1)) := by
    unfold union
    rw [upper.1, upper.2, (make_zero_right lowFits).1, (make_zero_right lowFits).2,
      min_eq_right lowNeg, max_eq_left highPos]
  have bothEnds := make_of_mem lowMem highMem
  have leftEnd := make_of_mem lowMem zero_mem_rangeBounds
  unfold remainders
  simp only [if_neg (show ¬ nmax = 0 by omega)]
  by_cases positive : A.max_ > 0 <;> by_cases negative : A.min_ < 0
  · simp only [if_pos positive, if_pos negative, above, both]
    exact bothEnds
  · simp only [if_pos positive, if_neg negative, above]
    exact upper
  · simp only [if_neg positive, if_pos negative, below]
    exact leftEnd
  · simp only [if_neg positive, if_neg negative]
    exact zero

/-- A truncated remainder has the sign of the dividend, is no larger in magnitude, and
    is smaller than the divisor. -/
theorem tmod_facts (nonzero : b ≠ 0) :
    (0 ≤ a → 0 ≤ Int.tmod a b ∧ Int.tmod a b ≤ a ∧ Int.tmod a b < b.natAbs) ∧
      (a ≤ 0 → a ≤ Int.tmod a b ∧ Int.tmod a b ≤ 0 ∧ -(b.natAbs : Int) < Int.tmod a b) := by
  have small : (Int.tmod a b).natAbs < b.natAbs := by
    rw [Int.natAbs_tmod]
    exact Nat.mod_lt _ (Int.natAbs_pos.2 nonzero)
  have notLarger : (Int.tmod a b).natAbs ≤ a.natAbs := by
    rw [Int.natAbs_tmod]
    exact Nat.mod_le _ _
  constructor
  · intro nonneg
    have sign := Int.tmod_nonneg b nonneg
    omega
  · intro nonpos
    have sign := Int.tmod_nonneg (a := -a) b (by omega)
    rw [Int.neg_tmod] at sign
    omega

/-- The measure of a divisor range that does not reach `INT32_MIN`. -/
theorem maxDivisor_eq (ordered : B.min_ ≤ B.max_) (inside : B.min_ ≠ int32Min) :
    B.maxDivisor = some (max (B.min_.natAbs : Int) B.max_.natAbs) := by
  have apart : B.max_ ≠ int32Min := by
    have least := B.fits_min.1
    omega
  unfold maxDivisor
  rw [abs32_eq B.fits_min, if_neg inside, abs32_eq B.fits_max, if_neg apart]
  rfl

/-- The measure of one that starts there. -/
theorem maxDivisor_of_int32Min (start : B.min_ = int32Min) : B.maxDivisor = none := by
  unfold maxDivisor
  rw [abs32_eq B.fits_min, if_pos start]
  rfl

/-- A remainder is inside once the divisor is no larger than its measure. -/
theorem tmod_mem {nmax : Int} (member : a ∈ A) (nonzero : b ≠ 0) (measured : (b.natAbs : Int) ≤ nmax)
    (fits : nmax ≤ int32Max) : Int.tmod a b ∈ A.remainders nmax := by
  have positive : 0 < nmax := by omega
  obtain ⟨lower, upper⟩ := @remainders_bounds A nmax positive fits
  have above := le_upperBound (nmax - 1)
  have below := lowerBound_le (-nmax + 1)
  obtain ⟨positive, negative⟩ := tmod_facts (a := a) nonzero
  rw [mem_iff] at member ⊢
  rw [lower, upper]
  rcases le_total 0 a with nonneg | nonpos
  · have bounds := positive nonneg
    clear positive negative lower upper
    constructor <;> split <;> omega
  · have bounds := negative nonpos
    clear positive negative lower upper
    constructor <;> split <;> omega

/-- Where every magnitude fits, the remainder stays below the measure of the divisor. -/
theorem mod_sound_of_inside (ordered : B.min_ ≤ B.max_) (inside : B.min_ ≠ int32Min)
    (member : a ∈ A) (memberRhs : b ∈ B) (nonzero : b ≠ 0) : Holds (A.mod B) (Int.tmod a b) := by
  have measure := maxDivisor_eq ordered inside
  have fitsMin := B.fits_min
  have fitsMax := B.fits_max
  rw [mem_iff] at memberRhs
  unfold FitsInt32 int32Min at fitsMin fitsMax
  unfold int32Min at inside
  have limit : int32Max = 2147483647 := rfl
  refine ⟨A.remainders (max (B.min_.natAbs : Int) B.max_.natAbs), ?_, ?_⟩
  · unfold mod
    rw [measure]
    rfl
  · exact tmod_mem member nonzero (by omega) (by omega)

/-- Remainders by a divisor range are inside exactly where the range does not start at `INT32_MIN`. -/
theorem mod_sound_iff (ordered : A.min_ ≤ A.max_) (orderedRhs : B.min_ ≤ B.max_) :
    (∀ a ∈ A, ∀ b ∈ B, b ≠ 0 → Holds (A.mod B) (Int.tmod a b)) ↔ B.min_ ≠ int32Min := by
  constructor
  · intro sound start
    have first : B.min_ ∈ B := ⟨le_refl _, orderedRhs⟩
    obtain ⟨range, result, _⟩ := sound A.min_ ⟨le_refl _, ordered⟩ B.min_ first (by rw [start]; decide)
    unfold mod at result
    rw [maxDivisor_of_int32Min start] at result
    cases result
  · intro inside a member b memberRhs nonzero
    exact mod_sound_of_inside orderedRhs inside member memberRhs nonzero

/-- What the optimiser relies on: every operator holds the results on the values of its
    operands, and an overflow that is not announced does not happen. -/
structure OperatorsSound (A B : RangeInfo) : Prop where
  add : ∀ a ∈ A, ∀ b ∈ B, FitsInt32 (a + b) → Holds (A.add B) (a + b)
  sub : ∀ a ∈ A, ∀ b ∈ B, FitsInt32 (a - b) → Holds (A.sub B) (a - b)
  mul : ∀ a ∈ A, ∀ b ∈ B, FitsInt32 (a * b) → a * b ∈ A.mul B
  mod : ∀ a ∈ A, ∀ b ∈ B, b ≠ 0 → Holds (A.mod B) (Int.tmod a b)
  not : ∀ a ∈ A, ~~~a ∈ A.not
  ashr : ∀ K : RangeInfo, K.min_ = K.max_ → ∀ a ∈ A, ∀ k ∈ K, ashrValue a k ∈ A.ashr K
  shr : ∀ K : RangeInfo, K.min_ = K.max_ → ∀ a ∈ A, ∀ k ∈ K,
    FitsInt32 (shrValue a k) → (shrValue a k : Int) ∈ A.shr K
  addFits : A.maybeAddOverflowOrUnderflow B = false → ∀ a ∈ A, ∀ b ∈ B, FitsInt32 (a + b)
  subFits : A.maybeSubOverflowOrUnderflow B = false → ∀ a ∈ A, ∀ b ∈ B, FitsInt32 (a - b)
  mulFits : A.maybeMulOverflowOrUnderflow B = false → ∀ a ∈ A, ∀ b ∈ B, FitsInt32 (a * b)
  shrFits : A.maybeShrOverflow B = false → ∀ a ∈ A, ∀ b ∈ B, FitsInt32 (shrValue a b)

/-- All of it holds exactly where the divisor range does not start at `INT32_MIN`; the operators
    other than `operator%` are sound on every pair of ranges. -/
theorem operatorsSound_iff (A B : RangeInfo) (ordered : A.min_ ≤ A.max_)
    (orderedRhs : B.min_ ≤ B.max_) : OperatorsSound A B ↔ B.min_ ≠ int32Min := by
  rw [← mod_sound_iff ordered orderedRhs]
  constructor
  · intro sound
    exact sound.mod
  · intro remainder
    exact {
      add := fun a member b memberRhs fits => add_sound member memberRhs fits
      sub := fun a member b memberRhs fits => sub_sound member memberRhs fits
      mul := fun a member b memberRhs fits => mul_sound member memberRhs fits
      mod := remainder
      not := fun a member => not_sound member
      ashr := fun K constant a member k count => ashr_sound member constant count
      shr := fun K constant a member k count fits => shr_sound member constant count fits
      addFits := fun safe a member b memberRhs => add_fits member memberRhs safe
      subFits := fun safe a member b memberRhs => sub_fits member memberRhs safe
      mulFits := fun safe a member b memberRhs => mul_fits member memberRhs safe
      shrFits := fun safe a member b memberRhs => shr_fits member memberRhs safe }

theorem operatorsSound_small : OperatorsSound (make (-5) 5) (make 3 7) ↔
    (make 3 7).min_ ≠ int32Min :=
  operatorsSound_iff (make (-5) 5) (make 3 7) (by decide +kernel) (by decide +kernel)

/-- `100 % INT32_MIN` is `100`, but the range of the remainder is undefined. -/
theorem not_operatorsSound : ¬ OperatorsSound (make 100 100) (make int32Min 1) := by
  intro sound
  have remainder := sound.mod 100 (by decide +kernel) int32Min (by decide +kernel) (by decide)
  obtain ⟨range, result, _⟩ := remainder
  rw [show (make 100 100).mod (make int32Min 1) = none by decide +kernel] at result
  cases result

end ArkRuntime.RangeInfo
