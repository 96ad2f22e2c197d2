import ArkRuntime.Compiler.Circuit

/-!
# Bounds of array indices

The bounds of `compiler/array_bounds_check_elimination.cpp`, what two of them are together, and what is computed for
an arithmetic gate. A bound is a gate and an `int` that is added to it. An operation on `int`s has no result where
the exact one is no `int`.
-/

namespace ArkRuntime.Compiler

/-- `i_lower + c_lower <= x <= i_upper + c_upper`; `none` is `NullGate`. -/
structure Bound where
  lower : Int32
  lowerGate : Option GateRef
  upper : Int32
  upperGate : Option GateRef
  deriving DecidableEq

namespace Bound

/-- `Bound()`. -/
def any : Bound := ⟨Int32.minValue, none, Int32.maxValue, none⟩

/-- The bound of a comparison; `none` for other operations, where it is fatal. -/
def ofOp (op : TypedBinOp) (gate : Option GateRef) (constant : Int32) : Option Bound :=
  match op with
  | .TYPED_EQ => some ⟨constant, gate, constant, gate⟩
  | .TYPED_NOTEQ => some ⟨
      if gate = none ∧ constant = Int32.minValue then Int32.minValue + 1 else Int32.minValue, none,
      if gate = none ∧ constant = Int32.maxValue then Int32.maxValue - 1 else Int32.maxValue, none⟩
  | .TYPED_GREATEREQ => some ⟨constant, gate, Int32.maxValue, none⟩
  | .TYPED_LESSEQ => some ⟨Int32.minValue, none, constant, gate⟩
  | _ => none

def hasUpper (b : Bound) : Bool := b.upperGate ≠ none ∨ b.upper < Int32.maxValue

def hasLower (b : Bound) : Bool := b.lowerGate ≠ none ∨ b.lower > Int32.minValue

/-- Whether the bound relative to the second gate is taken, by the depths of their regions. -/
def sets (depth : GateRef → Option Int) (boundGate bGate : Option GateRef) : Bool :=
  match boundGate, bGate with
  | some boundGate, some bGate => (depth boundGate).getD (-1) < (depth bGate).getD (-1)
  | _, _ => true

/-- `AndOp`; a gate without a region has no depth. -/
def andOp (depth : GateRef → Option Int) (bound b : Bound) : Bound :=
  let bound := if bound.lowerGate = b.lowerGate then { bound with lower := max bound.lower b.lower } else bound
  let bound := if b.hasLower ∧ sets depth bound.lowerGate b.lowerGate then
    { bound with lower := b.lower, lowerGate := b.lowerGate } else bound
  let bound := if bound.upperGate = b.upperGate then { bound with upper := min bound.upper b.upper } else bound
  if b.hasUpper ∧ sets depth bound.upperGate b.upperGate then
    { bound with upper := b.upper, upperGate := b.upperGate } else bound

/-- `OrOp`. -/
def orOp (bound b : Bound) : Bound :=
  let bound := if bound.lowerGate ≠ b.lowerGate then { bound with lowerGate := none, lower := Int32.minValue }
    else { bound with lower := min bound.lower b.lower }
  if bound.upperGate ≠ b.upperGate then { bound with upperGate := none, upper := Int32.maxValue }
  else { bound with upper := max bound.upper b.upper }

/-- The bound of a sum with a constant, unless the new bound lies on the wrong side of the old one. -/
def shift (bound : Bound) (constValue : Int32) : Option Bound :=
  if ¬bound.hasUpper ∨ ¬bound.hasLower then some any
  else
    (checkedAdd bound.lower constValue).bind fun newLower =>
      (checkedAdd bound.upper constValue).bind fun newUpper =>
        if (constValue < 0 ∧ newLower > bound.lower) ∨ (constValue > 0 ∧ newUpper < bound.upper) then some any
        else some ⟨newLower, bound.lowerGate, newUpper, bound.upperGate⟩

end Bound

/-! ## Gates -/

namespace Circuit

variable (c : Circuit)

/-- `static_cast<int>(GetConstantValue)`. -/
def intConstant (gate : GateRef) : Int32 := (c.getConstantValue gate).toUInt32.toInt32

def isArrayLength (gate : GateRef) : Bool :=
  match c.getOpCode gate with
  | .LOAD_ARRAY_LENGTH | .LOAD_TYPED_ARRAY_LENGTH _ => true
  | _ => false

/-- A turn of `FindBoundGate`. -/
def skip (gate : GateRef) : Option GateRef :=
  match c.getOpCode gate with
  | .RANGE_GUARD _ _ => some (c.getValueIn gate 0)
  | .INDEX_CHECK => some (c.getValueIn gate 1)
  | _ => none

def findBoundGateFrom : Nat → GateRef → GateRef
  | 0, gate => gate
  | fuel + 1, gate =>
      match c.skip gate with
      | some input => findBoundGateFrom fuel input
      | none => gate

/-- `FindBoundGate`, which ends where no gate checks itself. -/
def findBoundGate (gate : GateRef) : GateRef := c.findBoundGateFrom c.gates.length gate

def operand (gate : GateRef) (index : Nat) : GateRef := c.findBoundGate (c.getValueIn gate index)

/-- `DoConstant`. -/
def doConstant (gate : GateRef) : Bound := ⟨c.intConstant gate, none, c.intConstant gate, none⟩

/-- `DoBinaryArithmeticOp` for `TYPED_AND` with a constant. -/
def andBound (x y : GateRef) : Visit Bound :=
  let constValue := if c.isConstant x then c.intConstant x else c.intConstant y
  if constValue ≥ 0 then .found ⟨0, none, constValue, none⟩ else .null

/-- `DoBinaryArithmeticOp` for `TYPED_MOD`. -/
def modBound (xBound : Bound) (y : GateRef) : Bound :=
  if xBound.lower ≥ 0 ∧ xBound.lowerGate = none ∧ c.isArrayLength y then ⟨0, none, -1, some y⟩
  else if xBound.hasLower ∧ xBound.lower ≥ 0 ∧ c.isConstant y ∧ c.getConstantValue y ≠ 0 then
    let constValue := c.intConstant y
    if constValue ≠ Int32.minValue then ⟨0, none, constValue.abs - 1, none⟩ else .any
  else .any

/-- `DoBinaryArithmeticOp` for a sum or a difference with a constant. -/
def sumBound (getBound : GateRef → Bound) (op : TypedBinOp) (x y : GateRef) : Option Bound :=
  let (x, y) := if c.isConstant y then (y, x) else (x, y)
  let constValue := c.intConstant x
  (if op = .TYPED_SUB then checkedNeg constValue else some constValue).bind (getBound y).shift

/-- `DoBinaryArithmeticOp` for a difference of two gates. -/
def differenceBound (xBound : Bound) (y : GateRef) : Option Bound :=
  if xBound.lowerGate = some y then Bound.ofOp .TYPED_GREATEREQ none xBound.lower else some .any

/-- `DoBinaryArithmeticOp`. -/
def doBinaryArithmeticOp (getBound : GateRef → Bound) (gate : GateRef) (op : TypedBinOp) : Visit Bound :=
  let x := c.operand gate 0
  let y := c.operand gate 1
  if ¬(¬c.isConstant x ∨ ¬c.isConstant y) then .null
  else if op = .TYPED_AND ∧ (c.isConstant x ∨ c.isConstant y) then c.andBound x y
  else if op = .TYPED_MOD then .found (c.modBound (getBound x) y)
  else if ((c.isConstant x ∨ c.isConstant y) ∧ op = .TYPED_ADD) ∨ (c.isConstant y ∧ op = .TYPED_SUB) then
    .ofOption (c.sumBound getBound op x y)
  else if op = .TYPED_SUB then .ofOption (differenceBound (getBound x) y)
  else .found .any

/-- `DoUnaryArithmeticOp`. -/
def doUnaryArithmeticOp (getBound : GateRef → Bound) (gate : GateRef) (op : TypedUnOp) : Visit Bound :=
  let x := c.operand gate 0
  match op with
  | .TYPED_INC => .ofOption ((getBound x).shift 1)
  | .TYPED_DEC => .ofOption ((getBound x).shift (-1))
  | _ => .found .any

end Circuit

/-! ## Values -/

/-- What a typed operation computes without overflow. -/
def TypedBinOp.Computes : TypedBinOp → Int → Int → Int → Prop
  | .TYPED_ADD, x, y, r => r = x + y
  | .TYPED_SUB, x, y, r => r = x - y
  | .TYPED_MOD, x, y, r => y ≠ 0 ∧ r = x.tmod y
  | .TYPED_AND, x, y, r => r = (BitVec.ofInt 32 x &&& BitVec.ofInt 32 y).toInt
  | _, _, _, _ => True

/-- The value of a gate where its inputs have theirs. -/
def Circuit.Means (c : Circuit) (val : GateRef → Int) (gate : GateRef) : Prop :=
  match c.getOpCode gate with
  | .CONSTANT value => val gate = value.toUInt32.toInt32.toInt
  | .RANGE_GUARD _ _ => val gate = val (c.getValueIn gate 0)
  | .INDEX_CHECK => val gate = val (c.getValueIn gate 1)
  | .TYPED_BINARY_OP op => op.Computes (val (c.getValueIn gate 0)) (val (c.getValueIn gate 1)) (val gate)
  | .TYPED_UNARY_OP .TYPED_INC => val gate = val (c.getValueIn gate 0) + 1
  | .TYPED_UNARY_OP .TYPED_DEC => val gate = val (c.getValueIn gate 0) - 1
  | _ => True

/-- The inputs that a gate has been evaluated from. -/
def Circuit.UsesValue (c : Circuit) (gate : GateRef) (index : Nat) : Prop :=
  match c.getOpCode gate with
  | .RANGE_GUARD _ _ | .TYPED_UNARY_OP _ => index = 0
  | .INDEX_CHECK => index = 1
  | .TYPED_BINARY_OP _ => index = 0 ∨ index = 1
  | _ => False

/-- The values of the gates that have been evaluated, which are `int`s. -/
structure Circuit.Evaluation (c : Circuit) (evaluated : GateRef → Prop) (val : GateRef → Int) : Prop where
  fits : ∀ gate, evaluated gate → FitsInt32 (val gate)
  means : ∀ gate, evaluated gate → c.Means val gate
  closed : ∀ gate index, evaluated gate → c.UsesValue gate index → evaluated (c.getValueIn gate index)

/-- The value of the gate of a bound. -/
def gateValue (val : GateRef → Int) : Option GateRef → Int
  | some gate => val gate
  | none => 0

/-- A bound holds of a value. -/
structure Bound.Holds (b : Bound) (val : GateRef → Int) (x : Int) : Prop where
  lower : gateValue val b.lowerGate + b.lower.toInt ≤ x
  upper : x ≤ gateValue val b.upperGate + b.upper.toInt

/-! ## Operations on bounds -/

section Operations

variable {bound b : Bound} {val : GateRef → Int} {x : Int} {depth : GateRef → Option Int}

theorem holds_iff {lower upper : Int32} {lowerGate upperGate : Option GateRef} {x : Int} :
    (Bound.mk lower lowerGate upper upperGate).Holds val x ↔
      gateValue val lowerGate + lower.toInt ≤ x ∧ x ≤ gateValue val upperGate + upper.toInt :=
  ⟨fun h => ⟨h.lower, h.upper⟩, fun h => ⟨h.1, h.2⟩⟩

theorem Bound.any_holds (fits : FitsInt32 x) : Bound.any.Holds val x := by
  obtain ⟨low, high⟩ := fits
  refine ⟨?_, ?_⟩
  · rw [show gateValue val Bound.any.lowerGate = 0 from rfl, show Bound.any.lower.toInt = int32Min from rfl, Int.zero_add]
    exact low
  · rw [show gateValue val Bound.any.upperGate = 0 from rfl, show Bound.any.upper.toInt = int32Max from rfl, Int.zero_add]
    exact high

theorem Bound.Holds.ite {p : Prop} [Decidable p] {other : Bound} (h : bound.Holds val x)
    (set : p → bound.Holds val x → other.Holds val x) : (if p then other else bound).Holds val x := by
  split
  · next holds => exact set holds h
  · exact h

theorem max_cases (m n : Int32) : (max m n = m ∨ max m n = n) ∧ m.toInt ≤ (max m n).toInt ∧ n.toInt ≤ (max m n).toInt := by
  rw [show max m n = if m ≤ n then n else m from rfl]
  split
  · next le => exact ⟨.inr rfl, Int32.le_iff_toInt_le.mp le, Int.le_refl _⟩
  · next gt => exact ⟨.inl rfl, Int.le_refl _, Int.le_of_lt (Int.not_le.mp fun le => gt (Int32.le_iff_toInt_le.mpr le))⟩

theorem min_cases (m n : Int32) : (min m n = m ∨ min m n = n) ∧ (min m n).toInt ≤ m.toInt ∧ (min m n).toInt ≤ n.toInt := by
  rw [show min m n = if m ≤ n then m else n from rfl]
  split
  · next le => exact ⟨.inl rfl, Int.le_refl _, Int32.le_iff_toInt_le.mp le⟩
  · next gt => exact ⟨.inr rfl, Int.le_of_lt (Int.not_le.mp fun le => gt (Int32.le_iff_toInt_le.mpr le)), Int.le_refl _⟩

theorem Bound.Holds.andOp_holds (h : bound.Holds val x) (hb : b.Holds val x) : (bound.andOp depth b).Holds val x := by
  unfold Bound.andOp
  refine Holds.ite (Holds.ite (Holds.ite (Holds.ite h ?_) fun _ h => ⟨hb.lower, h.upper⟩) ?_) fun _ h => ⟨h.lower, hb.upper⟩
  · intro same h
    refine ⟨?_, h.upper⟩
    rcases (max_cases bound.lower b.lower).1 with one | other
    · rw [one]
      exact h.lower
    · rw [other, same]
      exact hb.lower
  · intro same h
    refine ⟨h.lower, ?_⟩
    dsimp only at same ⊢
    rcases (min_cases _ b.upper).1 with one | other
    · rw [one]
      exact h.upper
    · rw [other, same]
      exact hb.upper

theorem Bound.orOp_holds (fits : FitsInt32 x) (h : bound.Holds val x ∨ b.Holds val x) : (bound.orOp b).Holds val x := by
  have all : Bound.any.Holds val x := any_holds fits
  have low (same : bound.lowerGate = b.lowerGate) :
      gateValue val bound.lowerGate + (min bound.lower b.lower).toInt ≤ x := by
    obtain ⟨-, one, other⟩ := min_cases bound.lower b.lower
    rcases h with ⟨lower, -⟩ | ⟨lower, -⟩
    · omega
    · rw [← same] at lower
      omega
  have high (same : bound.upperGate = b.upperGate) :
      x ≤ gateValue val bound.upperGate + (max bound.upper b.upper).toInt := by
    obtain ⟨-, one, other⟩ := max_cases bound.upper b.upper
    rcases h with ⟨-, upper⟩ | ⟨-, upper⟩
    · omega
    · rw [← same] at upper
      omega
  by_cases lowers : bound.lowerGate = b.lowerGate
  · by_cases uppers : bound.upperGate = b.upperGate
    · rw [show bound.orOp b = ⟨min bound.lower b.lower, bound.lowerGate, max bound.upper b.upper, bound.upperGate⟩ by
        simp [orOp, lowers, uppers]]
      exact ⟨low lowers, high uppers⟩
    · rw [show bound.orOp b = ⟨min bound.lower b.lower, bound.lowerGate, Int32.maxValue, none⟩ by
        simp [orOp, lowers, uppers]]
      exact ⟨low lowers, all.upper⟩
  · by_cases uppers : bound.upperGate = b.upperGate
    · rw [show bound.orOp b = ⟨Int32.minValue, none, max bound.upper b.upper, bound.upperGate⟩ by
        simp [orOp, lowers, uppers]]
      exact ⟨all.lower, high uppers⟩
    · rw [show bound.orOp b = .any by simp [orOp, lowers, uppers, any]]
      exact all

/-- The sums of both constants of a bound with another one fit, unless the bound is not looked at. -/
def Bound.ShiftFits (bound : Bound) (n : Int) : Prop :=
  bound.hasUpper ∧ bound.hasLower → FitsInt32 (bound.lower.toInt + n) ∧ FitsInt32 (bound.upper.toInt + n)

/-- The bound of a sum with a constant is there and holds exactly if the sums of the constants fit. -/
theorem Bound.Holds.shift_iff (h : bound.Holds val x) {constValue : Int32} (fits : FitsInt32 (x + constValue.toInt)) :
    (Visit.ofOption (bound.shift constValue)).Meets (·.Holds val (x + constValue.toInt)) ↔
      bound.ShiftFits constValue.toInt := by
  obtain ⟨below, above⟩ := h
  rw [Visit.meets_ofOption]
  unfold Bound.shift Bound.ShiftFits
  by_cases none : ¬bound.hasUpper ∨ ¬bound.hasLower
  · rw [if_pos none]
    refine iff_of_true ⟨_, rfl, Bound.any_holds fits⟩ fun both => ?_
    exact absurd none (by simp [both])
  · rw [if_neg none, show (bound.hasUpper = true ∧ bound.hasLower = true) = True by simpa using none, true_implies]
    constructor
    · rintro ⟨r, shifted, -⟩
      obtain ⟨newLower, lower, shifted⟩ := Option.bind_eq_some_iff.mp shifted
      obtain ⟨newUpper, upper, -⟩ := Option.bind_eq_some_iff.mp shifted
      rw [← exactInt32_eq_some_iff.mp lower, ← exactInt32_eq_some_iff.mp upper]
      exact ⟨fitsInt32_toInt newLower, fitsInt32_toInt newUpper⟩
    · rintro ⟨lowerFits, upperFits⟩
      have lower := exactInt32_eq_some_iff.mp (if_pos lowerFits)
      have upper := exactInt32_eq_some_iff.mp (if_pos upperFits)
      rw [show checkedAdd bound.lower constValue = _ from if_pos lowerFits, Option.bind_some,
        show checkedAdd bound.upper constValue = _ from if_pos upperFits, Option.bind_some]
      split
      · exact ⟨_, rfl, Bound.any_holds fits⟩
      · exact ⟨_, rfl, holds_iff.mpr (by omega)⟩

end Operations

/-! ## Arithmetic gates -/

section Arithmetic

variable {c : Circuit} {evaluated : GateRef → Prop} {val : GateRef → Int} {gate : GateRef}

theorem findBoundGateFrom_spec (eval : c.Evaluation evaluated val) (fuel : Nat) :
    ∀ gate, evaluated gate → evaluated (c.findBoundGateFrom fuel gate) ∧ val (c.findBoundGateFrom fuel gate) = val gate := by
  induction fuel with
  | zero => exact fun gate h => ⟨h, rfl⟩
  | succ fuel ih =>
    intro gate h
    have means := eval.means gate h
    have closed (index : Nat) := eval.closed gate index h
    unfold Circuit.findBoundGateFrom Circuit.skip
    unfold Circuit.Means at means
    unfold Circuit.UsesValue at closed
    cases opCode : c.getOpCode gate with
    | RANGE_GUARD left right =>
      rw [opCode] at means closed
      obtain ⟨rest, same⟩ := ih _ (closed 0 rfl)
      exact ⟨rest, same.trans means.symm⟩
    | INDEX_CHECK =>
      rw [opCode] at means closed
      obtain ⟨rest, same⟩ := ih _ (closed 1 rfl)
      exact ⟨rest, same.trans means.symm⟩
    | _ => exact ⟨h, rfl⟩

/-- An operand and the gate that is found for it have the same value. -/
theorem operand_spec (eval : c.Evaluation evaluated val) (h : evaluated gate) {index : Nat} (uses : c.UsesValue gate index) :
    evaluated (c.operand gate index) ∧ val (c.operand gate index) = val (c.getValueIn gate index) :=
  findBoundGateFrom_spec eval _ _ (eval.closed gate index h uses)

theorem val_constantGate (eval : c.Evaluation evaluated val) (h : evaluated gate) (constant : c.isConstant gate) :
    val gate = (c.intConstant gate).toInt := by
  have means := eval.means gate h
  unfold Circuit.Means at means
  rwa [Circuit.getOpCode_of_isConstant constant] at means

/-- The bounds of the operands hold. -/
def Circuit.Recorded (c : Circuit) (getBound : GateRef → Bound) (val : GateRef → Int) (gate : GateRef) : Prop :=
  ∀ index, c.UsesValue gate index → (getBound (c.operand gate index)).Holds val (val (c.operand gate index))

/-- A remainder by the length of an array is less than it if the length is positive; a remainder by a constant is
    not negative if the dividend is not or if it is 0. -/
def Circuit.ModExact (c : Circuit) (xBound : Bound) (val : GateRef → Int) (x y : GateRef) : Prop :=
  if 0 ≤ xBound.lower ∧ xBound.lowerGate = none ∧ c.isArrayLength y then 0 < val y
  else xBound.hasLower ∧ 0 ≤ xBound.lower ∧ c.isConstant y ∧ c.intConstant y ≠ Int32.minValue →
    0 ≤ val x ∨ val y ∣ val x

/-- What a remainder needs for its bound, and what a sum or a difference with a constant does: the constant can be
    negated and added to those of the bound. -/
def Circuit.BinaryExact (c : Circuit) (getBound : GateRef → Bound) (val : GateRef → Int) (gate : GateRef)
    (op : TypedBinOp) : Prop :=
  let x := c.operand gate 0
  let y := c.operand gate 1
  (c.isConstant x ∧ c.isConstant y) ∨
    match op with
    | .TYPED_MOD => c.ModExact (getBound x) val x y
    | .TYPED_ADD =>
        (c.isConstant x → (getBound y).ShiftFits (val x)) ∧ (c.isConstant y → (getBound x).ShiftFits (val y))
    | .TYPED_SUB => c.isConstant y → val y ≠ int32Min ∧ (getBound x).ShiftFits (-val y)
    | _ => True

/-- The remainder of what is not negative by the length of an array. -/
theorem mod_length_iff {y : GateRef} {x r : Int} (positive : 0 ≤ x) (computes : val y ≠ 0 ∧ r = x.tmod (val y)) :
    (Bound.mk 0 none (-1) (some y)).Holds val r ↔ 0 < val y := by
  obtain ⟨nonzero, rfl⟩ := computes
  rw [Int.tmod_eq_emod_of_nonneg positive]
  constructor
  · rintro ⟨low, high⟩
    change 0 + 0 ≤ _ at low
    change _ ≤ val y + -1 at high
    omega
  · intro length
    have low := Int.emod_nonneg x nonzero
    have high := Int.emod_lt_of_pos x length
    refine ⟨?_, ?_⟩
    · change 0 + 0 ≤ _
      omega
    · change _ ≤ val y + -1
      omega

theorem toInt_abs_sub_one {n : Int32} (other : n ≠ Int32.minValue) (nonzero : n.toInt ≠ 0) :
    (n.abs - 1).toInt = n.toInt.natAbs - 1 := by
  have least : n.toBitVec ≠ BitVec.intMin 32 := fun same => other (Int32.toBitVec_inj.mp same)
  have magnitude : n.abs.toInt = n.toInt.natAbs := BitVec.toInt_abs_eq_natAbs_of_ne_intMin least
  have fits := fitsInt32_toInt n.abs
  unfold FitsInt32 int32Min int32Max at fits
  rw [Int32.toInt_sub, magnitude, show (1 : Int32).toInt = 1 from rfl]
  exact Int.bmod_eq_of_le (by omega) (by omega)

/-- The remainder by a constant is less than it; only that of a negative number can be negative. -/
theorem mod_constant_iff {n : Int32} {x r : Int} (other : n ≠ Int32.minValue)
    (computes : n.toInt ≠ 0 ∧ r = x.tmod n.toInt) :
    (Bound.mk 0 none (n.abs - 1) none).Holds val r ↔ 0 ≤ x ∨ n.toInt ∣ x := by
  obtain ⟨nonzero, rfl⟩ := computes
  have magnitude := toInt_abs_sub_one other nonzero
  have below : (x.tmod n.toInt).natAbs < n.toInt.natAbs := by
    rw [Int.natAbs_tmod]
    exact Nat.mod_lt _ (Int.natAbs_pos.mpr nonzero)
  have sign : 0 ≤ x.tmod n.toInt ↔ 0 ≤ x ∨ n.toInt ∣ x := by
    rw [Int.dvd_iff_tmod_eq_zero]
    rcases Int.lt_or_le x 0 with negative | positive
    · have opposite := Int.tmod_nonneg n.toInt (show 0 ≤ -x by omega)
      rw [Int.neg_tmod] at opposite
      omega
    · exact iff_of_true (Int.tmod_nonneg _ positive) (.inl positive)
  rw [← sign]
  constructor
  · rintro ⟨low, -⟩
    change 0 + 0 ≤ _ at low
    omega
  · intro low
    refine ⟨?_, ?_⟩
    · change 0 + 0 ≤ _
      omega
    · change _ ≤ 0 + (n.abs - 1).toInt
      omega

theorem and_constant_holds {n : Int32} {x : Int} (positive : 0 ≤ n) :
    (Bound.mk 0 none n none).Holds val (BitVec.ofInt 32 x &&& n.toBitVec).toInt := by
  have small : n.toBitVec.toNat < 2 ^ 31 := by
    rw [Int32.le_iff_toInt_le, Int32.toInt_zero, ← Int32.toInt_toBitVec, BitVec.toInt_eq_toNat_cond] at positive
    split at positive <;> omega
  have le : (BitVec.ofInt 32 x &&& n.toBitVec).toNat ≤ n.toBitVec.toNat := by
    rw [BitVec.toNat_and]
    exact Nat.and_le_right
  refine ⟨?_, ?_⟩
  · change 0 + 0 ≤ _
    rw [BitVec.toInt_eq_toNat_of_lt (by omega)]
    omega
  · change _ ≤ 0 + n.toInt
    rw [← Int32.toInt_toBitVec, BitVec.toInt_eq_toNat_of_lt (by omega), BitVec.toInt_eq_toNat_of_lt (by omega)]
    omega

/-- An operand of a gate, with its value and its bound. -/
structure Circuit.Operand (c : Circuit) (getBound : GateRef → Bound) (val : GateRef → Int) (x : GateRef) : Prop where
  fits : FitsInt32 (val x)
  bound : (getBound x).Holds val (val x)
  constant : c.isConstant x → val x = (c.intConstant x).toInt

section Operands

variable {getBound : GateRef → Bound} {x y : GateRef} {r : Int}

theorem andBound_meets (first : c.Operand getBound val x) (second : c.Operand getBound val y)
    (constant : c.isConstant x ∨ c.isConstant y) (computes : TypedBinOp.TYPED_AND.Computes (val x) (val y) r) :
    (c.andBound x y).Meets (·.Holds val r) := by
  dsimp only [TypedBinOp.Computes] at computes
  subst computes
  unfold Circuit.andBound
  by_cases left : c.isConstant x = true
  · rw [if_pos left]
    dsimp only
    split
    · next positive =>
      rw [first.constant left, ← Int32.toInt_toBitVec, BitVec.ofInt_toInt, BitVec.and_comm]
      exact and_constant_holds positive
    · trivial
  · rw [if_neg left]
    dsimp only
    split
    · next positive =>
      rw [second.constant (constant.resolve_left left), ← Int32.toInt_toBitVec, BitVec.ofInt_toInt]
      exact and_constant_holds positive
    · trivial

theorem modBound_iff (first : c.Operand getBound val x) (second : c.Operand getBound val y)
    (computes : TypedBinOp.TYPED_MOD.Computes (val x) (val y) r) (fits : FitsInt32 r) :
    (c.modBound (getBound x) y).Holds val r ↔ c.ModExact (getBound x) val x y := by
  unfold Circuit.modBound Circuit.ModExact
  split
  · next length =>
    have low := Int32.le_iff_toInt_le.mp length.1
    have above := first.bound.lower
    rw [length.2.1] at above
    change 0 + _ ≤ _ at above
    rw [Int32.toInt_zero] at low
    exact mod_length_iff (by omega) computes
  · split
    · next divides =>
      obtain ⟨hasLower, positive, constant, -⟩ := divides
      dsimp only
      split
      · next other =>
        have divisor := second.constant constant
        dsimp only [TypedBinOp.Computes] at computes
        rw [divisor] at computes ⊢
        rw [mod_constant_iff other computes]
        exact ⟨fun sign _ => sign, fun sign => sign ⟨hasLower, positive, constant, other⟩⟩
      · next least => exact iff_of_true (Bound.any_holds fits) fun ⟨_, _, _, other⟩ => absurd other least
    · next divides =>
      refine iff_of_true (Bound.any_holds fits) fun ⟨hasLower, positive, constant, _⟩ => ?_
      have zero : c.getConstantValue y = 0 := by
        by_contra nonzero
        exact divides ⟨hasLower, positive, constant, nonzero⟩
      have divisor := second.constant constant
      rw [Circuit.intConstant, zero] at divisor
      exact absurd divisor computes.1

/-- A sum with a constant, and a difference as the sum with the negated constant. -/
theorem sumBound_iff {op : TypedBinOp} (first : c.Operand getBound val x) (second : c.Operand getBound val y)
    (sum : ((c.isConstant x ∨ c.isConstant y) ∧ op = .TYPED_ADD) ∨ (c.isConstant y ∧ op = .TYPED_SUB))
    (one : ¬(c.isConstant x ∧ c.isConstant y)) (computes : op.Computes (val x) (val y) r) (fits : FitsInt32 r) :
    (Visit.ofOption (c.sumBound getBound op x y)).Meets (·.Holds val r) ↔
      if op = .TYPED_SUB then val y ≠ int32Min ∧ (getBound x).ShiftFits (-val y)
      else (c.isConstant x → (getBound y).ShiftFits (val x)) ∧ (c.isConstant y → (getBound x).ShiftFits (val y)) := by
  rcases sum with ⟨constant, rfl⟩ | ⟨constant, rfl⟩
  · dsimp only [TypedBinOp.Computes] at computes
    subst computes
    rw [if_neg (by decide : ¬TypedBinOp.TYPED_ADD = .TYPED_SUB)]
    by_cases right : c.isConstant y = true
    · have left : ¬c.isConstant x = true := fun left => one ⟨left, right⟩
      rw [show c.sumBound getBound .TYPED_ADD x y = (getBound x).shift (c.intConstant y) by simp [Circuit.sumBound, right]]
      rw [second.constant right] at fits ⊢
      rw [first.bound.shift_iff fits]
      exact ⟨fun exact => ⟨fun left' => absurd left' left, fun _ => exact⟩, fun exact => exact.2 right⟩
    · have left := constant.resolve_right right
      rw [show c.sumBound getBound .TYPED_ADD x y = (getBound y).shift (c.intConstant x) by simp [Circuit.sumBound, right]]
      rw [first.constant left, Int.add_comm] at fits ⊢
      rw [second.bound.shift_iff fits]
      exact ⟨fun exact => ⟨fun _ => exact, fun right' => absurd right' right⟩, fun exact => exact.1 left⟩
  · dsimp only [TypedBinOp.Computes] at computes
    subst computes
    rw [if_pos rfl, show c.sumBound getBound .TYPED_SUB x y = (checkedNeg (c.intConstant y)).bind (getBound x).shift by
      simp [Circuit.sumBound, constant]]
    have range := second.fits
    unfold FitsInt32 int32Min int32Max at range
    cases negation : checkedNeg (c.intConstant y) with
    | none =>
      have overflow := exactInt32_eq_none_iff.mp negation
      rw [← second.constant constant] at overflow
      unfold FitsInt32 int32Min int32Max at overflow
      refine iff_of_false (fun h => h) fun exact => ?_
      have other := exact.1
      unfold int32Min at other
      omega
    | some negated =>
      have same := exactInt32_eq_some_iff.mp negation
      have negatedRange := fitsInt32_toInt negated
      rw [← second.constant constant] at same
      rw [Int.sub_eq_add_neg, ← same] at fits ⊢
      rw [Option.bind_some, first.bound.shift_iff fits]
      refine ⟨fun exact => ⟨fun least => ?_, exact⟩, And.right⟩
      unfold FitsInt32 int32Min int32Max at negatedRange
      unfold int32Min at least
      omega

theorem differenceBound_meets (first : c.Operand getBound val x)
    (computes : TypedBinOp.TYPED_SUB.Computes (val x) (val y) r) (fits : FitsInt32 r) :
    (Visit.ofOption (Circuit.differenceBound (getBound x) y)).Meets (·.Holds val r) := by
  rw [Visit.meets_ofOption]
  unfold Circuit.differenceBound
  split
  · next relative =>
    have above := first.bound.lower
    rw [relative] at above
    change val y + _ ≤ _ at above
    dsimp only [TypedBinOp.Computes] at computes
    refine ⟨_, rfl, ?_, (Bound.any_holds fits).upper⟩
    change 0 + (getBound x).lower.toInt ≤ _
    omega
  · exact ⟨_, rfl, Bound.any_holds fits⟩

end Operands

theorem doBinaryArithmeticOp_iff (eval : c.Evaluation evaluated val) (h : evaluated gate) {op : TypedBinOp}
    (opCode : c.getOpCode gate = .TYPED_BINARY_OP op) {getBound : GateRef → Bound}
    (recorded : c.Recorded getBound val gate) :
    (c.doBinaryArithmeticOp getBound gate op).Meets (·.Holds val (val gate)) ↔ c.BinaryExact getBound val gate op := by
  have computes := eval.means gate h
  have uses : c.UsesValue gate 0 ∧ c.UsesValue gate 1 := by
    unfold Circuit.UsesValue
    rw [opCode]
    exact ⟨.inl rfl, .inr rfl⟩
  unfold Circuit.Means at computes
  rw [opCode] at computes
  obtain ⟨hx, vx⟩ := operand_spec eval h uses.1
  obtain ⟨hy, vy⟩ := operand_spec eval h uses.2
  have first : c.Operand getBound val (c.operand gate 0) := ⟨eval.fits _ hx, recorded 0 uses.1, val_constantGate eval hx⟩
  have second : c.Operand getBound val (c.operand gate 1) := ⟨eval.fits _ hy, recorded 1 uses.2, val_constantGate eval hy⟩
  have fits := eval.fits gate h
  dsimp only at computes
  rw [← vx, ← vy] at computes
  unfold Circuit.doBinaryArithmeticOp Circuit.BinaryExact
  dsimp only
  generalize c.operand gate 0 = x at *
  generalize c.operand gate 1 = y at *
  split
  · next both =>
    rw [not_or, not_not, not_not] at both
    exact iff_of_true trivial (.inl both)
  · next operands =>
    have one : ¬(c.isConstant x ∧ c.isConstant y) := fun both => operands (by simp [both])
    rw [or_iff_right one]
    split
    · next and =>
      obtain ⟨rfl, constant⟩ := and
      exact iff_of_true (andBound_meets first second constant computes) trivial
    · split
      · next mod =>
        subst mod
        exact modBound_iff first second computes fits
      · next notMod =>
        split
        · next sum =>
          rw [sumBound_iff first second sum one computes fits]
          rcases sum with ⟨-, rfl⟩ | ⟨constant, rfl⟩
          · exact Iff.rfl
          · exact ⟨fun exact _ => exact, fun exact => exact constant⟩
        · next notSum =>
          split
          · next sub =>
            subst sub
            exact iff_of_true (differenceBound_meets first computes fits) fun constant =>
              absurd (.inr ⟨constant, rfl⟩) notSum
          · next notSub =>
            refine iff_of_true (Bound.any_holds fits) ?_
            split
            · exact absurd rfl notMod
            · exact ⟨fun left => absurd (.inl ⟨.inl left, rfl⟩) notSum, fun right => absurd (.inl ⟨.inr right, rfl⟩) notSum⟩
            · exact absurd rfl notSub
            · trivial

/-- The constants of the bound have successors, or predecessors. -/
def Circuit.UnaryExact (c : Circuit) (getBound : GateRef → Bound) (gate : GateRef) (op : TypedUnOp) : Prop :=
  match op with
  | .TYPED_INC => (getBound (c.operand gate 0)).ShiftFits 1
  | .TYPED_DEC => (getBound (c.operand gate 0)).ShiftFits (-1)
  | _ => True

theorem doUnaryArithmeticOp_iff (eval : c.Evaluation evaluated val) (h : evaluated gate) {op : TypedUnOp}
    (opCode : c.getOpCode gate = .TYPED_UNARY_OP op) {getBound : GateRef → Bound}
    (recorded : c.Recorded getBound val gate) :
    (c.doUnaryArithmeticOp getBound gate op).Meets (·.Holds val (val gate)) ↔ c.UnaryExact getBound gate op := by
  have means := eval.means gate h
  have fits := eval.fits gate h
  have uses : c.UsesValue gate 0 := by
    unfold Circuit.UsesValue
    rw [opCode]
  obtain ⟨hx, vx⟩ := operand_spec eval h uses
  have bound := recorded 0 uses
  unfold Circuit.Means at means
  rw [opCode] at means
  unfold Circuit.doUnaryArithmeticOp Circuit.UnaryExact
  cases op with
  | TYPED_INC =>
    rw [show val gate = val (c.operand gate 0) + (1 : Int32).toInt from means.trans (by rw [vx]; rfl)] at fits ⊢
    exact bound.shift_iff fits
  | TYPED_DEC =>
    rw [show val gate = val (c.operand gate 0) + (-1 : Int32).toInt from means.trans (by rw [vx]; rfl)] at fits ⊢
    exact bound.shift_iff fits
  | _ => exact iff_of_true (Bound.any_holds fits) trivial

theorem doConstant_holds (eval : c.Evaluation evaluated val) (h : evaluated gate) (constant : c.isConstant gate) :
    (c.doConstant gate).Holds val (val gate) := by
  rw [val_constantGate eval h constant]
  exact ⟨Int.le_of_eq (Int.zero_add _), Int.le_of_eq (Int.zero_add _).symm⟩

end Arithmetic

end ArkRuntime.Compiler
