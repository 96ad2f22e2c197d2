import Mathlib.Order.Basic
import Mathlib.Tactic.Common

/-!
# `int32_t`

Values of a signed type of 32 bits as integers. A conversion to the type wraps around; an operation
whose exact result does not fit is undefined and has no result.
-/

namespace ArkRuntime

def int32Min : Int := -2147483648
def int32Max : Int := 2147483647

/-- The value is one an `int32_t` can hold. -/
def FitsInt32 (value : Int) : Prop := int32Min ≤ value ∧ value ≤ int32Max

instance (value : Int) : Decidable (FitsInt32 value) :=
  inferInstanceAs (Decidable (int32Min ≤ value ∧ value ≤ int32Max))

/-- Two's complement reduction of an integer to `int32_t`. -/
def wrap32 (value : Int) : Int := (value + 2147483648) % 4294967296 - 2147483648

theorem fitsInt32_wrap32 (value : Int) : FitsInt32 (wrap32 value) := by
  unfold FitsInt32 wrap32 int32Min int32Max
  omega

theorem wrap32_of_fits {value : Int} (fits : FitsInt32 value) : wrap32 value = value := by
  unfold FitsInt32 int32Min int32Max at fits
  unfold wrap32
  omega

/-- The result of an operation on `int32_t`: undefined where the exact one does not fit. -/
def checked32 (value : Int) : Option Int := if FitsInt32 value then some value else none

theorem checked32_of_fits {value : Int} (fits : FitsInt32 value) : checked32 value = some value :=
  if_pos fits

/-- `std::abs` on `int32_t`: the magnitude of `INT32_MIN` does not fit. -/
def abs32 (value : Int) : Option Int := checked32 value.natAbs

theorem abs32_eq {value : Int} (fits : FitsInt32 value) :
    abs32 value = if value = int32Min then none else some (value.natAbs : Int) := by
  unfold FitsInt32 int32Min int32Max at fits
  unfold abs32 checked32
  by_cases least : value = int32Min
  · rw [if_pos least, least]
    rfl
  · rw [if_neg least]
    unfold int32Min at least
    exact if_pos (by unfold FitsInt32 int32Min int32Max; omega)

/-! ## Operations on `Int32` -/

/-- The `int32_t` that is an exact result: undefined where there is none. -/
def exactInt32 (value : Int) : Option Int32 := if FitsInt32 value then some (Int32.ofInt value) else none

/-- A sum of two `int32_t`. -/
def checkedAdd (left right : Int32) : Option Int32 := exactInt32 (left.toInt + right.toInt)

/-- The negation of an `int32_t`. -/
def checkedNeg (value : Int32) : Option Int32 := exactInt32 (-value.toInt)

/-- The steps of `++` and `--`. -/
theorem checkedAdd_one (value : Int32) : checkedAdd value 1 = exactInt32 (value.toInt + 1) := rfl

theorem checkedAdd_neg_one (value : Int32) : checkedAdd value (-1) = exactInt32 (value.toInt - 1) := rfl

theorem fitsInt32_toInt (value : Int32) : FitsInt32 value.toInt :=
  ⟨Int32.le_toInt value, Int.le_of_lt_add_one (Int32.toInt_lt value)⟩

theorem exactInt32_eq_some_iff {value : Int} {result : Int32} :
    exactInt32 value = some result ↔ result.toInt = value := by
  unfold exactInt32
  constructor
  · intro exact_
    obtain ⟨⟨low, high⟩, same⟩ := Option.ite_none_right_eq_some.mp exact_
    cases same
    exact Int32.toInt_ofInt_of_le low (Int.lt_add_one_of_le high)
  · rintro rfl
    rw [if_pos (fitsInt32_toInt result), Int32.ofInt_toInt]

theorem exactInt32_eq_none_iff {value : Int} : exactInt32 value = none ↔ ¬FitsInt32 value :=
  ite_eq_right_iff.trans (by simp)

end ArkRuntime
