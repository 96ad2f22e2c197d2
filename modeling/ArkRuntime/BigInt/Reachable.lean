import ArkRuntime.BigInt.ConversionModel
import ArkRuntime.BigInt.Power

/-!
# Reachable BigInts

A program computes BigInts from BigInts and from numbers, words and numerals. Each operation returns
canonical forms for canonical operands, or does not return, so every BigInt of a run is canonical and
`Equal`, `Compare` and `AbsolutelyCompare` tell the numbers.
-/

namespace ArkRuntime

namespace BigInt

variable {x y r : BigInt} {digits out : List UInt32} {i n : Nat}

/-! ## Machine integers -/

theorem toNat_lowDigit (number : UInt64) :
    ((number &&& 0xffffffff).toUInt32).toNat = number.toNat % 2 ^ 32 := by
  rw [UInt64.toNat_toUInt32, UInt64.toNat_and, show (0xffffffff : UInt64).toNat = 2 ^ 32 - 1 from rfl,
    Nat.and_two_pow_sub_one_eq_mod]
  omega

theorem toNat_highDigit (number : UInt64) :
    (((number >>> 32) &&& 0xffffffff).toUInt32).toNat = number.toNat / 2 ^ 32 := by
  have bound := number.toNat_lt
  rw [toNat_lowDigit, UInt64.toNat_shiftRight, show (32 : UInt64).toNat % 64 = 32 from rfl,
    Nat.shiftRight_eq_div_pow]
  omega

theorem uint64ToBigInt_spec (number : UInt64) : Returns (uint64ToBigInt number) number.toNat := by
  have created : createBigint 2 = .ok ⟨false, [0, 0]⟩ := createBigint_of_le (by decide)
  have value : magnitude [(number &&& 0xffffffff).toUInt32,
      ((number >>> 32) &&& 0xffffffff).toUInt32] = number.toNat := by
    rw [magnitude_cons, magnitude_singleton, toNat_lowDigit, toNat_highDigit]
    omega
  have truncated : Returns (rightTruncate ⟨false, [(number &&& 0xffffffff).toUInt32,
      ((number >>> 32) &&& 0xffffffff).toUInt32]⟩) _ :=
    rightTruncate_unsigned (by simp) (by simp [maxSize_eq])
  rw [value] at truncated
  unfold uint64ToBigInt
  rw [created, ok_bind, setDigit_of_lt _ (by simp), ok_bind, setDigit_of_lt _ (by simp), ok_bind]
  exact truncated

theorem toInt_eq_toUInt64 (number : Int64) : number.toInt =
    if 2 * number.toUInt64.toNat < 2 ^ 64 then (number.toUInt64.toNat : Int)
    else number.toUInt64.toNat - 2 ^ 64 := by
  rw [← Int64.toInt_toBitVec, BitVec.toInt_eq_toNat_cond, Int64.toNat_toBitVec]
  rfl

/-- The magnitude that `Int64ToBigInt` computes without overflow. -/
theorem toNat_absolute (number : Int64) :
    (if number < 0 then (-(number + 1)).toUInt64 + 1 else number.toUInt64).toNat =
      number.toInt.natAbs := by
  have value := toInt_eq_toUInt64 number
  have bound := number.toUInt64.toNat_lt
  have negative : number < 0 ↔ number.toInt < 0 := by
    rw [Int64.lt_iff_toInt_lt, Int64.toInt_zero]
  by_cases below : number < 0
  · rw [if_pos below, Int64.toUInt64_neg, Int64.toUInt64_add, UInt64.toNat_add, UInt64.toNat_neg,
      UInt64.toNat_add]
    rw [negative] at below
    split at value
    · omega
    · simp only [UInt64.size, show (Int64.toUInt64 1).toNat = 1 from rfl, UInt64.toNat_one]
      omega
  · rw [if_neg below]
    rw [negative] at below
    split at value <;> omega

theorem int64ToBigInt_spec (number : Int64) : Returns (int64ToBigInt number) number.toInt := by
  have absolute := toNat_absolute number
  have negative : number < 0 ↔ number.toInt < 0 := by
    rw [Int64.lt_iff_toInt_lt, Int64.toInt_zero]
  simp only [int64ToBigInt, decide_eq_true_eq]
  obtain ⟨r, ran, canonical, value⟩ := uint64ToBigInt_spec
    (if number < 0 then (-(number + 1)).toUInt64 + 1 else number.toUInt64)
  rw [ran, ok_bind]
  have truncated := rightTruncate_digits (decide (number < 0)) canonical.positive canonical.size
  have magnitudeEq : magnitude r.digits = number.toInt.natAbs := by
    rw [← toInt_natAbs, value, Int.natAbs_natCast, absolute]
  rw [magnitudeEq] at truncated
  have same : signum (decide (number < 0)) * (number.toInt.natAbs : Int) = number.toInt := by
    by_cases below : number < 0
    · rw [decide_eq_true below]
      rw [negative] at below
      simp only [signum, if_true]
      omega
    · rw [decide_eq_false below]
      rw [negative] at below
      simp only [signum, Bool.false_eq_true, if_false]
      omega
  rwa [same] at truncated

/-! ## Lengths -/

theorem length_setDigit {d : UInt32} (ran : setDigit digits i d = .ok out) :
    out.length = digits.length := by
  rw [setDigit_ok ran, List.length_set]

theorem length_wordRound {words : List UInt64} (ran : wordRound words i digits = .ok out) :
    out.length = digits.length := by
  obtain ⟨word, -, ran⟩ := bind_eq_ok.mp ran
  obtain ⟨low, ranLow, ran⟩ := bind_eq_ok.mp ran
  rw [length_setDigit ran, length_setDigit ranLow]

theorem createBigWords_yieldsCanonical (sign : Bool) (size : UInt32) (words : List UInt64) :
    YieldsCanonical (createBigWords sign size words) := by
  simp only [createBigWords]
  split
  · exact (uint64ToBigInt_spec 0).yieldsCanonical
  split
  · exact yieldsCanonical_error _
  apply yieldsCanonical_bind
  intro bigint created
  apply yieldsCanonical_bind
  intro digits ran
  obtain ⟨small, rfl⟩ := createBigint_ok created
  apply yieldsCanonical_rightTruncate
  have len := forRange_ok (I := fun ds : List UInt32 => ds.length = (size * 2).toNat)
    (fun i s s' inv ran => (length_wordRound ran).trans inv) _ _ _ _ (by simp) ran
  show digits.length ≤ maxSize
  omega

theorem length_significandRound {integerDigits : UInt64} {s s' : Significand}
    (ran : significandRound integerDigits i s = .ok s') : s'.digits.length = s.digits.length := by
  unfold significandRound at ran
  split at ran
  all_goals
    obtain ⟨out, stored, eq⟩ := bind_eq_ok.mp ran
    cases eq
    exact length_setDigit stored

theorem numberToBigInt_yieldsCanonical (number : JSNumber) :
    YieldsCanonical (numberToBigInt number) := by
  simp only [numberToBigInt]
  split
  · exact yieldsCanonical_error _
  split
  · rw [int32ToBigInt_zero]
    exact yieldsCanonical_ok canonical_zero
  apply yieldsCanonical_bind
  intro bigint created
  apply yieldsCanonical_bind
  intro s ran
  obtain ⟨small, rfl⟩ := createBigint_ok created
  apply yieldsCanonical_rightTruncate
  have len := forDown_ok (I := fun s : Significand => s.digits.length ≤ maxSize)
    (fun i s s' inv ran => by rwa [length_significandRound ran]) _ _ _
    (by simpa using small) ran
  exact len

theorem length_packRound {s s' : List UInt32 × List Char} (ran : packRound i s = .ok s') :
    s'.1.length = s.1.length := by
  obtain ⟨out, stored, eq⟩ := bind_eq_ok.mp ran
  cases eq
  exact length_setDigit stored

theorem length_packFirst {binaryStr : List Char} {len mod : Nat}
    (ran : packFirst digits binaryStr len mod = .ok out) : out.length = digits.length := by
  unfold packFirst at ran
  split at ran
  · cases ran
    rfl
  · exact length_setDigit ran

theorem packBinary_yieldsCanonical (sign : Bool) (binaryStr : List Char) :
    YieldsCanonical (packBinary sign binaryStr) := by
  unfold packBinary
  apply yieldsCanonical_bind
  intro bigint created
  apply yieldsCanonical_bind
  intro first ranFirst
  apply yieldsCanonical_bind
  intro s ran
  obtain ⟨small, rfl⟩ := createBigint_ok created
  apply yieldsCanonical_rightTruncate
  have lenFirst : first.length ≤ maxSize := by
    rw [length_packFirst ranFirst, List.length_replicate]
    exact small
  exact forDown_ok (I := fun s : List UInt32 × List Char => s.1.length ≤ maxSize)
    (fun i s s' inv ran => by rwa [length_packRound ran]) _ _ _ lenFirst ran

theorem setBigInt_yieldsCanonical (numStr : List Char) (radix : UInt32) :
    YieldsCanonical (setBigInt numStr radix) := by
  apply yieldsCanonical_bind
  intro binaryStr _
  exact packBinary_yieldsCanonical _ binaryStr

/-! ## Shifts and divisions -/

theorem leftShiftHelper_yieldsCanonical (cx : x.Canonical) (cy : y.Canonical) :
    YieldsCanonical (leftShiftHelper x y) := by
  by_cases zero : x.isZero = true
  · rw [leftShiftHelper_zero zero]
    exact yieldsCanonical_ok cx
  · obtain ⟨d, read⟩ := exists_digit (show 0 < y.digits.length from cy.positive)
    rcases leftShiftHelper_spec cx (fun eq => zero (isZero_iff.mpr eq)) read with
      ⟨-, failed⟩ | ⟨-, returns⟩
    · rw [failed]
      exact yieldsCanonical_error _
    · exact returns.yieldsCanonical

theorem leftShift_yieldsCanonical (cx : x.Canonical) (cy : y.Canonical) :
    YieldsCanonical (leftShift x y) := by
  unfold leftShift
  split
  · exact (rightShiftHelper_spec cx cy).yieldsCanonical
  · exact leftShiftHelper_yieldsCanonical cx cy

theorem signedRightShift_yieldsCanonical (cx : x.Canonical) (cy : y.Canonical) :
    YieldsCanonical (signedRightShift x y) := by
  unfold signedRightShift
  split
  · exact yieldsCanonical_ok cx
  split
  · exact leftShiftHelper_yieldsCanonical cx cy
  · exact (rightShiftHelper_spec cx cy).yieldsCanonical

theorem division_yieldsCanonical (cx : x.Canonical) (cy : y.Canonical) :
    YieldsCanonical (divide x y) ∧ YieldsCanonical (remainder x y) := by
  by_cases zero : y.digits = [0]
  · have isZero := isZero_iff.mpr zero
    rw [divide, remainder, if_pos isZero, if_pos isZero]
    exact ⟨yieldsCanonical_error _, yieldsCanonical_error _⟩
  by_cases fits : DivisionFits x y
  · exact ⟨(divide_spec cx cy zero fits).yieldsCanonical,
      (remainder_spec cx cy zero fits).yieldsCanonical⟩
  · obtain ⟨divides, leaves⟩ := division_throws cx cy fits
    rw [divides, leaves]
    exact ⟨yieldsCanonical_error _, yieldsCanonical_error _⟩

/-! ## Runs -/

inductive BinaryOperation where
  | add
  | subtract
  | multiply
  | divide
  | remainder
  | bitwiseAND
  | bitwiseOR
  | bitwiseXOR
  | leftShift
  | signedRightShift
  | exponentiate
  deriving DecidableEq, Repr

def BinaryOperation.apply : BinaryOperation → BigInt → BigInt → Except BigIntFault BigInt
  | add => BigInt.add
  | subtract => BigInt.subtract
  | multiply => BigInt.multiply
  | divide => BigInt.divide
  | remainder => BigInt.remainder
  | bitwiseAND => BigInt.bitwiseAND
  | bitwiseOR => BigInt.bitwiseOR
  | bitwiseXOR => BigInt.bitwiseXOR
  | leftShift => BigInt.leftShift
  | signedRightShift => BigInt.signedRightShift
  | exponentiate => BigInt.exponentiate

inductive UnaryOperation where
  | unaryMinus
  | bitwiseNOT
  deriving DecidableEq, Repr

def UnaryOperation.apply : UnaryOperation → BigInt → Except BigIntFault BigInt
  | unaryMinus => BigInt.unaryMinus
  | bitwiseNOT => BigInt.bitwiseNOT

/-- An operation on BigInts computed before, given by their positions, or on other data. -/
inductive Operation where
  | binary (op : BinaryOperation) (x y : Nat)
  | unary (op : UnaryOperation) (x : Nat)
  | numberToBigInt (number : JSNumber)
  | int64ToBigInt (number : Int64)
  | createBigWords (sign : Bool) (size : UInt32) (words : List UInt64)
  | setBigInt (numStr : List Char) (currentRadix : UInt32)

/-- A BigInt computed before. -/
def operand (pool : List BigInt) (index : Nat) : Except BigIntFault BigInt :=
  match pool[index]? with
  | some x => .ok x
  | none => .error .invalidAccess

def Operation.result (pool : List BigInt) : Operation → Except BigIntFault BigInt
  | binary op x y => do op.apply (← operand pool x) (← operand pool y)
  | unary op x => do op.apply (← operand pool x)
  | numberToBigInt number => BigInt.numberToBigInt number
  | int64ToBigInt number => BigInt.int64ToBigInt number
  | createBigWords sign size words => BigInt.createBigWords sign size words
  | setBigInt numStr currentRadix => BigInt.setBigInt numStr currentRadix

/-- The BigInts of a run after one more operation; one that throws adds nothing. -/
def perform (pool : List BigInt) (op : Operation) : List BigInt :=
  match op.result pool with
  | .ok r => pool ++ [r]
  | .error _ => pool

/-- The BigInts of a run that starts with those of `pool`. -/
def runOperations (pool : List BigInt) (ops : List Operation) : List BigInt := ops.foldl perform pool

theorem BinaryOperation.yieldsCanonical (op : BinaryOperation) (cx : x.Canonical)
    (cy : y.Canonical) : YieldsCanonical (op.apply x y) := by
  cases op with
  | add => exact (add_spec cx cy).yieldsCanonical
  | subtract => exact (subtract_spec cx cy).yieldsCanonical
  | multiply => exact (multiply_spec cx cy).yieldsCanonical
  | divide => exact (division_yieldsCanonical cx cy).1
  | remainder => exact (division_yieldsCanonical cx cy).2
  | bitwiseAND => exact (bitwiseAND_spec cx cy).yieldsCanonical
  | bitwiseOR => exact (bitwiseOR_spec cx cy).yieldsCanonical
  | bitwiseXOR => exact (bitwiseXOR_spec cx cy).yieldsCanonical
  | leftShift => exact leftShift_yieldsCanonical cx cy
  | signedRightShift => exact signedRightShift_yieldsCanonical cx cy
  | exponentiate => exact exponentiate_yieldsCanonical cx

theorem UnaryOperation.yieldsCanonical (op : UnaryOperation) (cx : x.Canonical) :
    YieldsCanonical (op.apply x) := by
  cases op with
  | unaryMinus => exact (unaryMinus_spec cx).yieldsCanonical
  | bitwiseNOT => exact (bitwiseNOT_spec cx).yieldsCanonical

/-- Every BigInt of the pool is in canonical form. -/
def AllCanonical (pool : List BigInt) : Prop := ∀ x ∈ pool, x.Canonical

variable {pool : List BigInt} {v : Int}

theorem AllCanonical.operand {index : Nat} (all : AllCanonical pool) :
    YieldsCanonical (operand pool index) := by
  intro r ran
  unfold BigInt.operand at ran
  split at ran
  · next x read =>
    cases ran
    exact all _ (List.mem_of_getElem? read)
  · cases ran

theorem Operation.yieldsCanonical (op : Operation) (all : AllCanonical pool) :
    YieldsCanonical (op.result pool) := by
  cases op with
  | binary op x y =>
    exact yieldsCanonical_bind fun a ranA => yieldsCanonical_bind fun b ranB =>
      op.yieldsCanonical (all.operand a ranA) (all.operand b ranB)
  | unary op x => exact yieldsCanonical_bind fun a ran => op.yieldsCanonical (all.operand a ran)
  | numberToBigInt number => exact numberToBigInt_yieldsCanonical number
  | int64ToBigInt number => exact (int64ToBigInt_spec number).yieldsCanonical
  | createBigWords sign size words => exact createBigWords_yieldsCanonical sign size words
  | setBigInt numStr radix => exact setBigInt_yieldsCanonical numStr radix

theorem AllCanonical.perform (all : AllCanonical pool) (op : Operation) : AllCanonical (perform pool op) := by
  unfold BigInt.perform
  split
  · next r ran =>
    intro x mem
    rcases List.mem_append.mp mem with old | new
    · exact all x old
    · rw [List.mem_singleton.mp new]
      exact op.yieldsCanonical all r ran
  · exact all

theorem AllCanonical.runOperations (all : AllCanonical pool) (ops : List Operation) :
    AllCanonical (runOperations pool ops) := by
  induction ops generalizing pool with
  | nil => exact all
  | cons op ops ih => exact ih (all.perform op)

/-- Every BigInt of a run is canonical, and the comparisons compare the numbers. -/
theorem reachable_canonical (pool : List BigInt) (ops : List Operation) (all : AllCanonical pool) :
    ∀ x ∈ runOperations pool ops, x.Canonical ∧ ∀ y ∈ runOperations pool ops,
      equal x y = .ok (decide (x.toInt = y.toInt)) ∧
      compare x y = .ok (orderOf x.toInt y.toInt) ∧
      absolutelyCompare x y = .ok (orderOf |x.toInt| |y.toInt|) := by
  intro x memX
  have cx := all.runOperations ops x memX
  refine ⟨cx, fun y memY => ?_⟩
  have cy := all.runOperations ops y memY
  refine ⟨equal_spec cx cy, compare_spec cx cy, ?_⟩
  rw [Int.abs_eq_natAbs, Int.abs_eq_natAbs, toInt_natAbs, toInt_natAbs]
  exact absolutelyCompare_spec cx cy

/-- A run that comes back to zero from a negative number. -/
theorem reachable_canonical_negative_zero :
    let pool : List BigInt := [⟨true, [7]⟩]
    let ops : List Operation := [.setBigInt ['-', '0', '0'] 10, .binary .subtract 0 0,
      .binary .multiply 0 2, .binary .leftShift 0 0]
    AllCanonical pool ∧ runOperations pool ops =
        [⟨true, [7]⟩, ⟨false, [0]⟩, ⟨false, [0]⟩, ⟨false, [0]⟩, ⟨true, [1]⟩] ∧
      ∀ x ∈ runOperations pool ops, x.Canonical ∧ ∀ y ∈ runOperations pool ops,
        equal x y = .ok (decide (x.toInt = y.toInt)) ∧
        compare x y = .ok (orderOf x.toInt y.toInt) ∧
        absolutelyCompare x y = .ok (orderOf |x.toInt| |y.toInt|) := by
  intro pool ops
  have all : AllCanonical pool := by
    intro x mem
    rw [List.mem_singleton.mp mem]
    decide
  exact ⟨all, by decide +kernel, reachable_canonical pool ops all⟩

/-- The operations that are exact for all operands, with those on integers. -/
def exactOperations : List ((BigInt → BigInt → Except BigIntFault BigInt) × (Int → Int → Int)) :=
  [(add, (· + ·)), (subtract, (· - ·)), (multiply, (· * ·)), (bitwiseAND, Int.land), (bitwiseOR, Int.lor),
    (bitwiseXOR, Int.xor)]

/-- What calls that return make of canonical BigInts, and the integer of the expression. -/
inductive Computes : BigInt → Int → Prop where
  | operand {x : BigInt} : x.Canonical → Computes x x.toInt
  | binary {x y r : BigInt} {v w : Int} (op) : op ∈ exactOperations → Computes x v → Computes y w →
      op.1 x y = .ok r → Computes r (op.2 v w)
  | bitwiseNOT {x r : BigInt} {v : Int} : Computes x v → bitwiseNOT x = .ok r → Computes r v.lnot

theorem exactOperations_spec {op} (exact : op ∈ exactOperations) (cx : x.Canonical) (cy : y.Canonical) :
    ReturnsOr sizeExceeded (op.1 x y) (op.2 x.toInt y.toInt) := by
  simp only [exactOperations, List.mem_cons, List.not_mem_nil, or_false] at exact
  rcases exact with rfl | rfl | rfl | rfl | rfl | rfl
  exacts [add_spec cx cy, subtract_spec cx cy, multiply_spec cx cy, bitwiseAND_spec cx cy, bitwiseOR_spec cx cy,
    bitwiseXOR_spec cx cy]

theorem ReturnsOr.of_ok {fault : BigIntFault} {result : Except BigIntFault BigInt}
    (returns : ReturnsOr fault result v) (ran : result = .ok r) : r.Canonical ∧ r.toInt = v := by
  rcases returns with failed | ⟨s, returned, spec⟩
  · cases failed.symm.trans ran
  · cases returned.symm.trans ran
    exact spec

theorem Computes.spec (computes : Computes x v) : x.Canonical ∧ x.toInt = v := by
  induction computes with
  | operand canonical => exact ⟨canonical, rfl⟩
  | binary op exact _ _ ran left right =>
    obtain ⟨cx, rfl⟩ := left
    obtain ⟨cy, rfl⟩ := right
    exact (exactOperations_spec exact cx cy).of_ok ran
  | bitwiseNOT _ ran inner =>
    obtain ⟨cx, rfl⟩ := inner
    exact (bitwiseNOT_spec cx).of_ok ran

/-- Two computations end in the same sign and digits exactly if their expressions have the same integer. -/
theorem computes_eq_iff {w : Int} (left : Computes x v) (right : Computes y w) : x = y ↔ v = w := by
  obtain ⟨cx, rfl⟩ := left.spec
  obtain ⟨cy, rfl⟩ := right.spec
  exact ⟨congrArg toInt, cx.ext cy⟩

theorem computes_eq_iff_complement : let a : BigInt := ⟨false, [0xFFFFFFFF]⟩
    ∃ x y, bitwiseNOT a = .ok x ∧ subtract ⟨true, [1]⟩ a = .ok y ∧
      (x = y ↔ a.toInt.lnot = toInt ⟨true, [1]⟩ - a.toInt) := by
  refine ⟨_, _, rfl, rfl, computes_eq_iff ?_ ?_⟩
  · exact .bitwiseNOT (.operand (by decide)) rfl
  · exact .binary _ (.tail _ (.head _)) (.operand (by decide)) (.operand (by decide)) rfl

end BigInt

end ArkRuntime
