import ArkRuntime.Misc.BoundTable
import ArkRuntime.Misc.Int32

/-!
# Ranges of int32 values

`RangeInfo` of `compiler/number_gate_info.h`: a pair of int32 bounds. A pair of
two different bounds is rounded outwards to the table `rangeBounds_` when it is
built, so only the shapes of the field `built` exist. Arithmetic on bounds is
int32 arithmetic: a sum, a difference or a magnitude that does not fit is
undefined, and an operator that computes one has no result.
-/

namespace ArkRuntime

/-- `bit_cast<uint32_t>`. -/
def toUInt32 (value : Int) : Nat := (value % 4294967296).toNat

/-- `JSTypedArray::MAX_ONHEAP_LENGTH`. -/
def typedArrayOnHeapMax : Int := 512 * 8

def uint18Max : Int := 262143
def uint30Max : Int := 0x3fffffff

def rangeBounds : List Int :=
  [int32Min, int32Min + 1, -uint18Max, -typedArrayOnHeapMax, -1, 0, 1, typedArrayOnHeapMax - 1,
   typedArrayOnHeapMax, typedArrayOnHeapMax + 1, typedArrayOnHeapMax * 3, uint18Max, uint30Max,
   uint30Max + 1, int32Max - 1, int32Max]

theorem rangeBounds_sorted : rangeBounds.Pairwise (· < ·) := by decide

theorem rangeBounds_fit : ∀ bound ∈ rangeBounds, FitsInt32 bound := by decide

theorem int32Min_mem_rangeBounds : int32Min ∈ rangeBounds := by decide
theorem int32Max_mem_rangeBounds : int32Max ∈ rangeBounds := by decide

/-- The bound a lower end is rounded to (`upper_bound`, then one back). -/
def lowerBound (value : Int) : Int := BoundTable.floor rangeBounds value

/-- The bound an upper end is rounded to (`lower_bound`). -/
def upperBound (value : Int) : Int := BoundTable.ceil rangeBounds value

theorem lowerBound_mem {value : Int} (fits : FitsInt32 value) : lowerBound value ∈ rangeBounds :=
  BoundTable.floor_mem rangeBounds_sorted int32Min_mem_rangeBounds fits.1

theorem upperBound_mem {value : Int} (fits : FitsInt32 value) : upperBound value ∈ rangeBounds :=
  BoundTable.ceil_mem int32Max_mem_rangeBounds fits.2

theorem lowerBound_le (value : Int) : lowerBound value ≤ value :=
  BoundTable.floor_le rangeBounds value

theorem le_upperBound (value : Int) : value ≤ upperBound value :=
  BoundTable.le_ceil rangeBounds value

theorem lowerBound_of_mem {value : Int} (member : value ∈ rangeBounds) : lowerBound value = value :=
  BoundTable.floor_of_mem rangeBounds_sorted member

theorem upperBound_of_mem {value : Int} (member : value ∈ rangeBounds) : upperBound value = value :=
  BoundTable.ceil_of_mem rangeBounds_sorted member

-- evaluated on an open value the two unfold into a search through the whole table
attribute [irreducible] lowerBound upperBound

/-- A range is one value, or has both ends in the table: no other pair is ever built. -/
structure RangeInfo where
  min_ : Int
  max_ : Int
  built : min_ = max_ ∧ FitsInt32 min_ ∨ min_ ∈ rangeBounds ∧ max_ ∈ rangeBounds
  deriving DecidableEq

namespace RangeInfo

theorem fits_min (range : RangeInfo) : FitsInt32 range.min_ := by
  rcases range.built with single | table
  · exact single.2
  · exact rangeBounds_fit _ table.1

theorem fits_max (range : RangeInfo) : FitsInt32 range.max_ := by
  rcases range.built with single | table
  · exact single.1 ▸ single.2
  · exact rangeBounds_fit _ table.2

@[ext] theorem ext {range other : RangeInfo} (lower : range.min_ = other.min_)
    (upper : range.max_ = other.max_) : range = other := by
  cases range
  cases other
  cases lower
  cases upper
  rfl

/-- `RangeInfo(int32_t min, int32_t max)`: both arguments are converted to `int32_t`. -/
def make (min max : Int) : RangeInfo :=
  if same : wrap32 min = wrap32 max then
    { min_ := wrap32 min
      max_ := wrap32 max
      built := Or.inl ⟨same, fitsInt32_wrap32 min⟩ }
  else
    { min_ := lowerBound (wrap32 min)
      max_ := upperBound (wrap32 max)
      built := Or.inr ⟨lowerBound_mem (fitsInt32_wrap32 min), upperBound_mem (fitsInt32_wrap32 max)⟩ }

def ANY : RangeInfo := make int32Min int32Max

/-- `operator~`. -/
def not (range : RangeInfo) : RangeInfo := make (~~~range.max_) (~~~range.min_)

def union (range rhs : RangeInfo) : RangeInfo :=
  make (min range.min_ rhs.min_) (max range.max_ rhs.max_)

def maybeAddOverflow (range rhs : RangeInfo) : Bool :=
  rhs.max_ > 0 && range.max_ > int32Max - rhs.max_

def maybeAddUnderflow (range rhs : RangeInfo) : Bool :=
  rhs.min_ < 0 && range.min_ < int32Min - rhs.min_

def maybeAddOverflowOrUnderflow (range rhs : RangeInfo) : Bool :=
  range.maybeAddOverflow rhs || range.maybeAddUnderflow rhs

/-- `operator+`. -/
def add (range rhs : RangeInfo) : Option RangeInfo := do
  let nmax ← (if range.maybeAddOverflow rhs then some int32Max else checked32 (range.max_ + rhs.max_))
  let nmin ← (if range.maybeAddUnderflow rhs then some int32Min else checked32 (range.min_ + rhs.min_))
  return make nmin nmax

/-- The largest magnitude `operator%` takes a divisor to have. -/
def maxDivisor (rhs : RangeInfo) : Option Int := do
  let least ← abs32 rhs.min_
  let greatest ← abs32 rhs.max_
  return max least greatest

/-- The range `operator%` gives for divisors of at most a magnitude. -/
def remainders (range : RangeInfo) (nmax : Int) : RangeInfo :=
  let result := make 0 0
  if nmax = 0 then ANY
  else
    let result := if range.max_ > 0 then result.union (make 0 (nmax - 1)) else result
    if range.min_ < 0 then result.union (make (-nmax + 1) 0) else result

/-- `operator%`. -/
def mod (range rhs : RangeInfo) : Option RangeInfo := do
  let nmax ← rhs.maxDivisor
  return range.remainders nmax

/-- `MaybeMulUnderflow` of two values; `/` on `int32_t` truncates. -/
def mulUnderflows (lhs rhs : Int) : Bool :=
  (lhs > 0 && rhs < 0 && rhs < Int.tdiv int32Min lhs) ||
    (lhs < 0 && rhs > 0 && lhs < Int.tdiv int32Min rhs)

/-- `MaybeMulOverflow` of two values. -/
def mulOverflows (lhs rhs : Int) : Bool :=
  (lhs > 0 && rhs > 0 && lhs > Int.tdiv int32Max rhs) ||
    (lhs < 0 && rhs < 0 && lhs < Int.tdiv int32Max rhs)

/-- `TryMul`: the product of the last branch fits (`tryMul_eq`). -/
def tryMul (lhs rhs : Int) : Int :=
  if mulOverflows lhs rhs then int32Max
  else if mulUnderflows lhs rhs then int32Min
  else wrap32 (lhs * rhs)

def getMaxMulResult (range rhs : RangeInfo) : Int :=
  max (max (tryMul range.min_ rhs.min_) (tryMul range.min_ rhs.max_))
    (max (tryMul range.max_ rhs.min_) (tryMul range.max_ rhs.max_))

def getMinMulResult (range rhs : RangeInfo) : Int :=
  min (min (tryMul range.min_ rhs.min_) (tryMul range.min_ rhs.max_))
    (min (tryMul range.max_ rhs.min_) (tryMul range.max_ rhs.max_))

/-- `operator*`. -/
def mul (range rhs : RangeInfo) : RangeInfo :=
  make (range.getMinMulResult rhs) (range.getMaxMulResult rhs)

def maybeMulUnderflow (range rhs : RangeInfo) : Bool :=
  mulUnderflows range.min_ rhs.max_ || mulUnderflows range.max_ rhs.min_

def maybeMulOverflow (range rhs : RangeInfo) : Bool :=
  mulOverflows range.max_ rhs.max_ || mulOverflows range.min_ rhs.min_

def maybeMulOverflowOrUnderflow (range rhs : RangeInfo) : Bool :=
  range.maybeMulOverflow rhs || range.maybeMulUnderflow rhs

def maybeSubOverflow (range rhs : RangeInfo) : Bool :=
  rhs.min_ < 0 && range.max_ > int32Max + rhs.min_

def maybeSubUnderflow (range rhs : RangeInfo) : Bool :=
  rhs.max_ > 0 && range.min_ < int32Min + rhs.max_

def maybeSubOverflowOrUnderflow (range rhs : RangeInfo) : Bool :=
  range.maybeSubOverflow rhs || range.maybeSubUnderflow rhs

/-- `operator-`. -/
def sub (range rhs : RangeInfo) : Option RangeInfo := do
  let nmax ← (if range.maybeSubOverflow rhs then some int32Max else checked32 (range.max_ - rhs.min_))
  let nmin ← (if range.maybeSubUnderflow rhs then some int32Min else checked32 (range.min_ - rhs.max_))
  return make nmin nmax

/-- The low five bits of a shift count. -/
def shiftBits (count : Int) : Nat := toUInt32 count % 32

def maybeShrOverflow (range rhs : RangeInfo) : Bool :=
  if rhs.max_ ≠ rhs.min_ then true
  else shiftBits rhs.max_ == 0 && range.min_ < 0

/-- `SHR`: a logical shift by a constant, read back as `int32_t`. -/
def shr (range rhs : RangeInfo) : RangeInfo :=
  if range.maybeShrOverflow rhs then make 0 (max 0 range.max_)
  else
    let shift := shiftBits rhs.max_
    let tempMin := toUInt32 (if range.max_ ≥ 0 then max 0 range.min_ else range.min_)
    let tempMax := toUInt32 (if range.min_ < 0 then min (-1) range.max_ else range.max_)
    make (wrap32 (tempMin >>> shift : Nat)) (wrap32 (tempMax >>> shift : Nat))

/-- `ASHR`: an arithmetic shift by a constant. -/
def ashr (range rhs : RangeInfo) : RangeInfo :=
  let shift := shiftBits rhs.max_
  make (range.min_ >>> shift) (range.max_ >>> shift)

end RangeInfo

end ArkRuntime
