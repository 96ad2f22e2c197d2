import ArkRuntime.Compiler.Bounds

/-!
# Bounds of compared gates

What a comparison tells about a gate: the gate that it is compared with is taken apart into another one and a
constant (`GetInstrAndConstValueFromOp`), and the bound is built of these (`UpdateBound`).
-/

namespace ArkRuntime.Compiler

namespace Circuit

variable (c : Circuit)

/-- `GetInstrAndConstValueFromBinaryOp`: the other operand and the constant. -/
def getInstrAndConstValueFromBinaryOp (gate : GateRef) (op : TypedBinOp) : Option (GateRef × Option Int32) :=
  let x := c.operand gate 0
  let y := c.operand gate 1
  if (op = .TYPED_ADD ∧ (c.isConstant x ∨ c.isConstant y)) ∨ (op = .TYPED_SUB ∧ c.isConstant y) then
    let (other, value) := if c.isConstant x then (y, c.intConstant x) else (x, c.intConstant y)
    some (other, if op = .TYPED_SUB then checkedNeg value else some value)
  else none

/-- `GetInstrAndConstValueFromUnaryOp`. -/
def getInstrAndConstValueFromUnaryOp (gate : GateRef) : TypedUnOp → Option (GateRef × Option Int32)
  | .TYPED_INC => some (c.operand gate 0, some 1)
  | .TYPED_DEC => some (c.operand gate 0, some (-1))
  | _ => none

/-- What a turn of the loop of `GetInstrAndConstValueFromOp` finds. -/
def getOtherAndValue (gate : GateRef) : Option (GateRef × Option Int32) :=
  match c.getOpCode gate with
  | .TYPED_BINARY_OP op => c.getInstrAndConstValueFromBinaryOp gate op
  | .TYPED_UNARY_OP op => c.getInstrAndConstValueFromUnaryOp gate op
  | _ => none

/-- The loop of `GetInstrAndConstValueFromOp`. -/
def getInstrAndConstValueFrom : Nat → GateRef → Int32 → Option (Option GateRef × Int32)
  | 0, gate, base => some (some gate, base)
  | fuel + 1, gate, base =>
      match c.getOtherAndValue gate with
      | some (other, value) =>
          value.bind fun value =>
            if c.isConstant other then
              (checkedAdd value (c.intConstant other)).bind fun sum =>
                (checkedAdd base sum).bind fun constValue => some (none, constValue)
            else (checkedAdd base value).bind fun base => getInstrAndConstValueFrom fuel other base
      | none => some (some gate, base)

/-- `GetInstrAndConstValueFromOp`: the gate and the constant, whose sum the gate is. -/
def getInstrAndConstValueFromOp (gate : GateRef) : Option (Option GateRef × Int32) :=
  if c.isConstant gate then some (none, c.intConstant gate) else c.getInstrAndConstValueFrom c.gates.length gate 0

/-- The bound that `UpdateBound` builds of a comparison with a gate and a constant, if it does. -/
def comparisonBound (op : TypedBinOp) (instrValue : Option GateRef) (constValue : Int32) : Visit Bound :=
  match op with
  | .TYPED_GREATER =>
      if constValue = Int32.maxValue ∧ instrValue = none then .null
      else .ofOption ((checkedAdd constValue 1).bind (Bound.ofOp .TYPED_GREATEREQ instrValue))
  | .TYPED_LESS =>
      if constValue = Int32.minValue ∧ instrValue = none then .null
      else .ofOption ((checkedAdd constValue (-1)).bind (Bound.ofOp .TYPED_LESSEQ instrValue))
  | op => .ofOption (Bound.ofOp op instrValue constValue)

/-- The bound of `AddIfCondition`. -/
def conditionBound (op : TypedBinOp) (y : GateRef) : Visit Bound :=
  (Visit.ofOption (c.getInstrAndConstValueFromOp y)).bind fun found => comparisonBound op found.1 found.2

/-- `AddIfCondition` and `UpdateBound`: the new top of the bounds of a gate. -/
def addIfCondition (depth : GateRef → Option Int) (bounds : GateRef → Bound) (x y : GateRef) (op : TypedBinOp) :
    Visit Bound :=
  if c.isConstant x then .null
  else (c.conditionBound op y).map fun bound => bound.andOp depth (bounds x)

end Circuit

/-- The comparisons of the typed operations. -/
def TypedBinOp.Compares : TypedBinOp → Int → Int → Prop
  | .TYPED_LESS, x, y => x < y
  | .TYPED_LESSEQ, x, y => x ≤ y
  | .TYPED_GREATER, x, y => x > y
  | .TYPED_GREATEREQ, x, y => x ≥ y
  | .TYPED_EQ, x, y => x = y
  | .TYPED_NOTEQ, x, y => x ≠ y
  | _, _, _ => False

/-! ## The condition -/

/-- The constant of a bound has a successor, or a predecessor, where the comparison asks for it. -/
def TypedBinOp.NextFits (op : TypedBinOp) (n : Int) : Prop :=
  (op = .TYPED_GREATER → FitsInt32 (n + 1)) ∧ (op = .TYPED_LESS → FitsInt32 (n - 1))

/-- A number compares with a constant as far as the bound of the comparison tells. -/
def TypedBinOp.ComparesAlike : TypedBinOp → Int → Int → Prop
  | .TYPED_NOTEQ, x, n => n = int32Min ∨ n = int32Max → x ≠ n
  | .TYPED_GREATER, x, n => n = int32Max ∨ x > n
  | .TYPED_LESS, x, n => n = int32Min ∨ x < n
  | op, x, n => op.Compares x n

namespace Circuit

variable (c : Circuit) (val : GateRef → Int) (op : TypedBinOp) (x y : GateRef)

/-- The minuend of a difference is a constant. -/
def subtractsFromConstant (gate : GateRef) : Prop :=
  c.getOpCode gate = .TYPED_BINARY_OP .TYPED_SUB ∧ c.isConstant (c.operand gate 0)

/-- A difference of two constants is taken the other way round: what is compared with is less by twice the
    difference. -/
def DifferenceExact (gate : GateRef) : Prop :=
  let minuend := (c.intConstant (c.operand gate 0)).toInt
  let subtrahend := (c.intConstant (c.operand gate 1)).toInt
  minuend ≠ int32Min ∧ FitsInt32 (subtrahend - minuend) ∧
    FitsInt32 (val y - 2 * (minuend - subtrahend)) ∧ op.ComparesAlike (val x) (val y - 2 * (minuend - subtrahend))

/-- The constants that are taken off a gate fit, one by one and together, and the chain does not end in a difference
    of two constants that compares otherwise. -/
def ConditionExactFrom : Nat → GateRef → Prop
  | 0, gate => op.NextFits (val y - val gate)
  | fuel + 1, gate =>
      match c.getOtherAndValue gate with
      | some (other, _) =>
          if c.isConstant other then c.subtractsFromConstant gate → c.DifferenceExact val op x y gate
          else FitsInt32 (val gate - val other) ∧ FitsInt32 (val y - val other) ∧ ConditionExactFrom fuel other
      | none => op.NextFits (val y - val gate)

/-- The condition for a comparison of `x` with `y`. -/
def ConditionExact : Prop := c.isConstant y ∨ c.ConditionExactFrom val op x y c.gates.length y

end Circuit

section Conditions

variable {c : Circuit} {evaluated : GateRef → Prop} {val : GateRef → Int} {gate : GateRef}

/-- What a turn of the loop takes off a gate is the difference to the other gate, but for the difference of two
    constants. -/
theorem getOtherAndValue_spec (eval : c.Evaluation evaluated val) (h : evaluated gate) {other : GateRef}
    {value : Option Int32} (found : c.getOtherAndValue gate = some (other, value)) :
    evaluated other ∧
      ((c.subtractsFromConstant gate ∧ c.isConstant other ∧ other = c.operand gate 1 ∧
          value = checkedNeg (c.intConstant (c.operand gate 0)) ∧
          val gate = (c.intConstant (c.operand gate 0)).toInt - (c.intConstant other).toInt) ∨
        (¬c.subtractsFromConstant gate ∧ value = exactInt32 (val gate - val other) ∧
          (c.isConstant other → FitsInt32 (val gate - val other)))) := by
  have means := eval.means gate h
  have operand (index : Nat) (uses : c.UsesValue gate index) := operand_spec eval h uses
  unfold Circuit.Means at means
  unfold Circuit.UsesValue at operand
  unfold Circuit.getOtherAndValue at found
  unfold Circuit.subtractsFromConstant
  have constantly {value : Int32} (difference : val gate - val other = value.toInt) :
      some value = exactInt32 (val gate - val other) ∧ (c.isConstant other → FitsInt32 (val gate - val other)) :=
    ⟨(exactInt32_eq_some_iff.mpr difference.symm).symm, fun _ => difference ▸ fitsInt32_toInt value⟩
  split at found
  · next op opCode =>
    rw [opCode] at means operand ⊢
    obtain ⟨hx, vx⟩ := operand 0 (.inl rfl)
    obtain ⟨hy, vy⟩ := operand 1 (.inr rfl)
    dsimp only at means
    rw [← vx, ← vy] at means
    have constantX := val_constantGate eval hx
    have constantY := val_constantGate eval hy
    unfold Circuit.getInstrAndConstValueFromBinaryOp at found
    dsimp only at found
    generalize c.operand gate 0 = x at *
    generalize c.operand gate 1 = y at *
    obtain ⟨known, found⟩ := Option.ite_none_right_eq_some.mp found
    by_cases constant : c.isConstant x = true
    · simp only [if_pos constant, Option.some.injEq, Prod.mk.injEq] at found
      obtain ⟨rfl, rfl⟩ := found
      refine ⟨hy, ?_⟩
      rcases known with ⟨rfl, -⟩ | ⟨rfl, right⟩
      · have sum : val gate = val x + val y := means
        rw [if_neg (by decide)]
        refine .inr ⟨fun difference => (nomatch difference.1), constantly ?_⟩
        rw [← constantX constant]
        omega
      · have difference : val gate = val x - val y := means
        rw [if_pos rfl]
        exact .inl ⟨⟨rfl, constant⟩, right, rfl, rfl, by rw [difference, constantX constant, constantY right]⟩
    · simp only [if_neg constant, Option.some.injEq, Prod.mk.injEq] at found
      obtain ⟨rfl, rfl⟩ := found
      refine ⟨hx, .inr ⟨fun difference => constant difference.2, ?_⟩⟩
      rcases known with ⟨rfl, one⟩ | ⟨rfl, right⟩
      · have sum : val gate = val x + val y := means
        rw [if_neg (by decide)]
        refine constantly ?_
        rw [← constantY (one.resolve_left constant)]
        omega
      · have difference : val gate = val x - val y := means
        refine ⟨?_, fun left => absurd left constant⟩
        rw [if_pos rfl, checkedNeg, ← constantY right, difference]
        congr 1
        omega
  · next op opCode =>
    rw [opCode] at means operand ⊢
    obtain ⟨hx, vx⟩ := operand 0 rfl
    cases op with
    | TYPED_INC =>
      cases found
      have sum : val gate = val (c.getValueIn gate 0) + 1 := means
      refine ⟨hx, .inr ⟨fun difference => (nomatch difference.1), constantly ?_⟩⟩
      rw [sum, vx]
      exact add_sub_cancel_left _ _
    | TYPED_DEC =>
      cases found
      have sum : val gate = val (c.getValueIn gate 0) + -1 := means
      refine ⟨hx, .inr ⟨fun difference => (nomatch difference.1), constantly ?_⟩⟩
      rw [sum, vx]
      exact add_sub_cancel_left _ _
    | _ => cases found
  · cases found

theorem eq_minValue_iff {n : Int32} : n = Int32.minValue ↔ n.toInt = int32Min := Int32.toInt_inj.symm

theorem eq_maxValue_iff {n : Int32} : n = Int32.maxValue ↔ n.toInt = int32Max := Int32.toInt_inj.symm

/-- A computation that goes on with an exact result. -/
theorem meets_exactInt32 {α β : Type} {n : Int} {f : Int32 → Option α} {g : α → Visit β} {p : β → Prop} {q : Prop}
    (h : ∀ result : Int32, result.toInt = n → (((Visit.ofOption (f result)).bind g).Meets p ↔ q)) :
    ((Visit.ofOption ((exactInt32 n).bind f)).bind g).Meets p ↔ FitsInt32 n ∧ q := by
  cases computed : exactInt32 n with
  | none => exact iff_of_false (fun h => h) fun fits => exactInt32_eq_none_iff.mp computed fits.1
  | some result =>
    have exact_ := exactInt32_eq_some_iff.mp computed
    rw [Option.bind_some, h result exact_, and_iff_right (exact_ ▸ fitsInt32_toInt result)]

/-- The bound of a comparison with a constant. -/
theorem comparisonBound_constant_iff {x : Int} (fits : FitsInt32 x) {op : TypedBinOp} {n : Int32} {left right : Int}
    (compares : op.Compares left right) :
    (Circuit.comparisonBound op none n).Meets (·.Holds val x) ↔ op.ComparesAlike x n.toInt := by
  have range := fitsInt32_toInt n
  have least : Int32.minValue.toInt = int32Min := rfl
  have greatest : Int32.maxValue.toInt = int32Max := rfl
  unfold Circuit.comparisonBound
  unfold FitsInt32 int32Min int32Max at *
  cases op with
  | TYPED_LESS =>
    simp only [and_true, eq_minValue_iff, TypedBinOp.ComparesAlike]
    split
    · next end_ => exact iff_of_true trivial (.inl end_)
    · next inside =>
      unfold int32Min at *
      rw [checkedAdd_neg_one]
      have previousFits : FitsInt32 (n.toInt - 1) := by
        unfold FitsInt32 int32Min int32Max
        omega
      rw [exactInt32, if_pos previousFits, Option.bind_some]
      refine holds_iff.trans ?_
      rw [exactInt32_eq_some_iff.mp (if_pos previousFits)]
      dsimp only [gateValue]
      omega
  | TYPED_GREATER =>
    simp only [and_true, eq_maxValue_iff, TypedBinOp.ComparesAlike]
    split
    · next end_ => exact iff_of_true trivial (.inl end_)
    · next inside =>
      unfold int32Max at *
      rw [checkedAdd_one]
      have nextFits : FitsInt32 (n.toInt + 1) := by
        unfold FitsInt32 int32Min int32Max
        omega
      rw [exactInt32, if_pos nextFits, Option.bind_some]
      refine holds_iff.trans ?_
      rw [exactInt32_eq_some_iff.mp (if_pos nextFits)]
      dsimp only [gateValue]
      omega
  | TYPED_NOTEQ =>
    refine holds_iff.trans ?_
    simp only [true_and, eq_minValue_iff, eq_maxValue_iff]
    dsimp only [gateValue, TypedBinOp.ComparesAlike]
    rw [apply_ite Int32.toInt, apply_ite Int32.toInt, show (Int32.minValue + 1).toInt = -2147483647 from rfl,
      show (Int32.maxValue - 1).toInt = 2147483646 from rfl]
    unfold int32Min int32Max
    split <;> split <;> omega
  | TYPED_LESSEQ | TYPED_GREATEREQ | TYPED_EQ =>
    refine holds_iff.trans ?_
    dsimp only [gateValue, TypedBinOp.ComparesAlike, TypedBinOp.Compares]
    omega
  | _ => exact compares.elim

/-- The bound of a comparison with the sum of a gate and a constant. -/
theorem comparisonBound_relative_iff {x y : Int} (fits : FitsInt32 x) {op : TypedBinOp} {n : Int32} {g : GateRef}
    (sum : n.toInt = y - val g) (compares : op.Compares x y) :
    (Circuit.comparisonBound op (some g) n).Meets (·.Holds val x) ↔ op.NextFits (y - val g) := by
  have least : Int32.minValue.toInt = int32Min := rfl
  have greatest : Int32.maxValue.toInt = int32Max := rfl
  obtain ⟨low, high⟩ := fits
  unfold Circuit.comparisonBound TypedBinOp.NextFits
  rw [← sum]
  cases op with
  | TYPED_LESS =>
    simp only [reduceCtorEq, and_false, if_false, checkedAdd_neg_one, Visit.meets_ofOption, Option.bind_eq_some_iff,
      false_implies, true_implies, true_and]
    constructor
    · rintro ⟨b, ⟨previous, computed, -⟩, -⟩
      exact exactInt32_eq_some_iff.mp computed ▸ fitsInt32_toInt previous
    · intro previousFits
      have computed := exactInt32_eq_some_iff.mp (if_pos previousFits)
      refine ⟨_, ⟨_, if_pos previousFits, rfl⟩, holds_iff.mpr ?_⟩
      dsimp only [gateValue, TypedBinOp.Compares] at compares ⊢
      omega
  | TYPED_GREATER =>
    simp only [reduceCtorEq, and_false, if_false, checkedAdd_one, Visit.meets_ofOption, Option.bind_eq_some_iff,
      false_implies, true_implies, and_true]
    constructor
    · rintro ⟨b, ⟨next, computed, -⟩, -⟩
      exact exactInt32_eq_some_iff.mp computed ▸ fitsInt32_toInt next
    · intro nextFits
      have computed := exactInt32_eq_some_iff.mp (if_pos nextFits)
      refine ⟨_, ⟨_, if_pos nextFits, rfl⟩, holds_iff.mpr ?_⟩
      dsimp only [gateValue, TypedBinOp.Compares] at compares ⊢
      omega
  | TYPED_NOTEQ =>
    refine iff_of_true (holds_iff.mpr ?_) ⟨fun other => (nomatch other), fun other => (nomatch other)⟩
    simp only [reduceCtorEq, false_and, if_false]
    dsimp only [gateValue]
    omega
  | TYPED_LESSEQ | TYPED_GREATEREQ | TYPED_EQ =>
    refine iff_of_true (holds_iff.mpr ?_) ⟨fun other => (nomatch other), fun other => (nomatch other)⟩
    dsimp only [gateValue, TypedBinOp.Compares] at compares ⊢
    omega
  | _ => exact compares.elim

theorem conditionBoundFrom_iff (eval : c.Evaluation evaluated val) {x y : GateRef} (hx : evaluated x) (hy : evaluated y)
    {op : TypedBinOp} (compares : op.Compares (val x) (val y)) (fuel : Nat) :
    ∀ gate base, evaluated gate → base.toInt = val y - val gate →
      (((Visit.ofOption (c.getInstrAndConstValueFrom fuel gate base)).bind fun found =>
        Circuit.comparisonBound op found.1 found.2).Meets (·.Holds val (val x)) ↔
          c.ConditionExactFrom val op x y fuel gate) := by
  have fits := eval.fits x hx
  induction fuel with
  | zero => exact fun gate base h sum => comparisonBound_relative_iff fits sum compares
  | succ fuel ih =>
    intro gate base h sum
    unfold Circuit.getInstrAndConstValueFrom Circuit.ConditionExactFrom
    cases turn : c.getOtherAndValue gate with
    | none => exact comparisonBound_relative_iff fits sum compares
    | some pair =>
      obtain ⟨other, value⟩ := pair
      obtain ⟨hother, difference | ⟨plain, same, fitsLast⟩⟩ := getOtherAndValue_spec eval h turn
      · obtain ⟨ends, constant, rfl, rfl, difference⟩ := difference
        simp only [if_pos constant]
        rw [forall_prop_of_true ends]
        unfold Circuit.DifferenceExact
        dsimp only
        have range := fitsInt32_toInt (c.intConstant (c.operand gate 0))
        generalize c.intConstant (c.operand gate 0) = minuend at *
        generalize c.intConstant (c.operand gate 1) = subtrahend at *
        have negated : minuend.toInt ≠ int32Min ↔ FitsInt32 (-minuend.toInt) := by
          unfold FitsInt32 int32Min int32Max at *
          omega
        rw [negated]
        refine meets_exactInt32 fun value value_eq => ?_
        rw [checkedAdd, value_eq, show -minuend.toInt + subtrahend.toInt = subtrahend.toInt - minuend.toInt by omega]
        refine meets_exactInt32 fun total total_eq => ?_
        rw [checkedAdd, total_eq, sum, difference, show val y - (minuend.toInt - subtrahend.toInt) +
          (subtrahend.toInt - minuend.toInt) = val y - 2 * (minuend.toInt - subtrahend.toInt) by omega]
        refine meets_exactInt32 fun constValue constValue_eq => ?_
        rw [← constValue_eq]
        exact comparisonBound_constant_iff fits compares
      · subst same
        by_cases constant : c.isConstant other = true
        · simp only [if_pos constant]
          refine iff_of_true ?_ fun ends => absurd ends plain
          have alike : op.ComparesAlike (val x) (val y) := by
            cases op with
            | TYPED_LESS | TYPED_GREATER => exact .inr compares
            | TYPED_NOTEQ => exact fun _ => compares
            | _ => exact compares
          have last := val_constantGate eval hother constant
          have defined : FitsInt32 (val gate - val other) ∧ FitsInt32 (val gate) ∧ FitsInt32 (val y) ∧
              op.ComparesAlike (val x) (val y) := ⟨fitsLast constant, eval.fits gate h, eval.fits y hy, alike⟩
          refine (meets_exactInt32 fun value value_eq => ?_).mpr defined
          rw [checkedAdd, value_eq, ← last, Int.sub_add_cancel]
          refine meets_exactInt32 fun total total_eq => ?_
          rw [checkedAdd, total_eq, sum, Int.sub_add_cancel]
          refine meets_exactInt32 fun constValue constValue_eq => ?_
          rw [← constValue_eq]
          exact comparisonBound_constant_iff fits compares
        · simp only [if_neg constant]
          refine meets_exactInt32 fun value value_eq => ?_
          rw [checkedAdd, sum, value_eq, show val y - val gate + (val gate - val other) = val y - val other by omega]
          exact meets_exactInt32 fun base base_eq => ih other base hother base_eq

theorem conditionBound_iff (eval : c.Evaluation evaluated val) {x y : GateRef} (hx : evaluated x) (hy : evaluated y)
    {op : TypedBinOp} (compares : op.Compares (val x) (val y)) :
    (c.conditionBound op y).Meets (·.Holds val (val x)) ↔ c.ConditionExact val op x y := by
  unfold Circuit.conditionBound Circuit.getInstrAndConstValueFromOp Circuit.ConditionExact
  by_cases constant : c.isConstant y = true
  · rw [if_pos constant]
    refine iff_of_true ((comparisonBound_constant_iff (eval.fits x hx) compares).mpr ?_) (.inl constant)
    dsimp only
    rw [← val_constantGate eval hy constant]
    cases op with
    | TYPED_LESS | TYPED_GREATER => exact .inr compares
    | TYPED_NOTEQ => exact fun _ => compares
    | _ => exact compares
  · rw [if_neg constant, or_iff_right constant]
    exact conditionBoundFrom_iff eval hx hy compares _ y 0 hy (by simp)

end Conditions

/-- The bounds that are computed and what they are worth. -/
structure Circuit.BoundsHold (c : Circuit) (evaluated : GateRef → Prop) (val : GateRef → Int) : Prop where
  constant : ∀ gate, evaluated gate → c.isConstant gate → (c.doConstant gate).Holds val (val gate)
  binary : ∀ getBound gate op, evaluated gate → c.getOpCode gate = .TYPED_BINARY_OP op → c.Recorded getBound val gate →
    ((c.doBinaryArithmeticOp getBound gate op).Meets (·.Holds val (val gate)) ↔ c.BinaryExact getBound val gate op)
  unary : ∀ getBound gate op, evaluated gate → c.getOpCode gate = .TYPED_UNARY_OP op → c.Recorded getBound val gate →
    ((c.doUnaryArithmeticOp getBound gate op).Meets (·.Holds val (val gate)) ↔ c.UnaryExact getBound gate op)
  condition : ∀ op x y, evaluated x → evaluated y → op.Compares (val x) (val y) →
    ((c.conditionBound op y).Meets (·.Holds val (val x)) ↔ c.ConditionExact val op x y)
  updated : ∀ depth bounds op x y, evaluated x → evaluated y → op.Compares (val x) (val y) →
    (bounds x).Holds val (val x) → c.ConditionExact val op x y →
    (c.addIfCondition depth bounds x y op).Meets (·.Holds val (val x))
  and : ∀ depth (bound b : Bound) x, bound.Holds val x → b.Holds val x → (bound.andOp depth b).Holds val x
  or : ∀ (bound b : Bound) x, FitsInt32 x → bound.Holds val x ∨ b.Holds val x → (bound.orOp b).Holds val x

/-- Where gates have been evaluated without overflow and the bounds of the operands hold, the bounds of constants and
    of two bounds together hold. Those of an operation and of a comparison are there and hold exactly where no sum of
    constants overflows and no sign or difference of constants spoils them. -/
theorem boundsHold {c : Circuit} {evaluated : GateRef → Prop} {val : GateRef → Int}
    (eval : c.Evaluation evaluated val) : c.BoundsHold evaluated val where
  constant := fun _ h isConstant => doConstant_holds eval h isConstant
  binary := fun _ _ _ h opCode recorded => doBinaryArithmeticOp_iff eval h opCode recorded
  unary := fun _ _ _ h opCode recorded => doUnaryArithmeticOp_iff eval h opCode recorded
  condition := fun _ _ _ hx hy compares => conditionBound_iff eval hx hy compares
  updated := fun depth bounds op x y hx hy compares top exact => by
    unfold Circuit.addIfCondition
    split
    · trivial
    · exact ((conditionBound_iff eval hx hy compares).mpr exact).map fun bound holds => holds.andOp_holds top
  and := fun _ _ _ _ h hb => h.andOp_holds hb
  or := fun _ _ _ fits h => Bound.orOp_holds fits h

/-- `i % 4`, where only `i >= n` is known. -/
def remainderCircuit : Circuit :=
  .ofGates [⟨.OTHERS, .I32, true, []⟩, ⟨.OTHERS, .I32, true, []⟩, Gate.constant .I32 4,
    ⟨.TYPED_BINARY_OP .TYPED_MOD, .I32, true, [0, 2]⟩] (by decide)

def remainderValues (gate : GateRef) : Int := [-3, -3, 4, -3].getD gate 0

theorem remainder_evaluation : remainderCircuit.Evaluation (· < 4) remainderValues where
  fits := by
    intro gate h
    match gate, h with
    | 0, _ | 1, _ | 2, _ | 3, _ => exact ⟨by decide, by decide⟩
  means := by
    intro gate h
    match gate, h with
    | 0, _ | 1, _ => trivial
    | 2, _ => rfl
    | 3, _ => exact ⟨by decide, rfl⟩
  closed := by
    intro gate index h uses
    match gate, h with
    | 0, _ | 1, _ | 2, _ => exact uses.elim
    | 3, _ =>
      rcases uses with rfl | rfl
      · exact (by decide : 0 < 4)
      · exact (by decide : 2 < 4)

theorem boundsHold_remainder : remainderCircuit.BoundsHold (· < 4) remainderValues := boundsHold remainder_evaluation

/-- The bound of the remainder begins at 0, since the constant part of the bound of `i` is not negative. -/
theorem doBinaryArithmeticOp_remainder : ¬∀ (c : Circuit) (evaluated : GateRef → Prop) (val : GateRef → Int)
    (getBound : GateRef → Bound) (gate : GateRef) (op : TypedBinOp), c.Evaluation evaluated val →
    evaluated gate → c.getOpCode gate = .TYPED_BINARY_OP op → c.Recorded getBound val gate →
    (c.doBinaryArithmeticOp getBound gate op).Meets (·.Holds val (val gate)) := by
  intro h
  have recorded : remainderCircuit.Recorded
      (fun gate => if gate = 0 then ⟨0, some 1, Int32.maxValue, none⟩ else ⟨4, none, 4, none⟩) remainderValues 3 := by
    intro index uses
    rcases uses with rfl | rfl
    · exact ⟨by decide, by decide⟩
    · exact ⟨by decide, by decide⟩
  have bound : remainderCircuit.doBinaryArithmeticOp
      (fun gate => if gate = 0 then ⟨0, some 1, Int32.maxValue, none⟩ else ⟨4, none, 4, none⟩) 3 .TYPED_MOD =
        .found ⟨0, none, 3, none⟩ := rfl
  have holds := h remainderCircuit _ remainderValues _ 3 .TYPED_MOD remainder_evaluation (by decide : 3 < 4) rfl recorded
  rw [bound] at holds
  exact absurd holds.lower (by decide)

end ArkRuntime.Compiler
