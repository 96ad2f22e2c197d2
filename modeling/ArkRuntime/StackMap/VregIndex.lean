import ArkRuntime.StackMap.Model

/-!
# Virtual registers of inlined methods

The ids of deopt entries (`ecmascript/deoptimizer/deoptimizer.cpp`): an id holds the index of a virtual
register and the depth of the inlined method that has it. The depth stands in the low bits, below the magnitude
of the index, and the sign is that of the index. An id is computed with 32 bits, but entries keep only 16 of
them.

Shifts of 32-bit numbers by 32 and more are undefined in the source and `none` here; what a shift moves out at
the top is lost.
-/

namespace ArkRuntime

namespace StackMap

/-- `EncodeDeoptVregIndex`. -/
def encodeDeoptVregIndex (index : BitVec 32) (depth : BitVec 64) (shift : Nat) : Option (BitVec 32) :=
  if 32 ≤ shift then none
  else if 0 ≤ index.toInt then some (((index <<< shift).signExtend 64 ||| depth).setWidth 32)
  else some ((-(((-index) <<< shift).signExtend 64 ||| depth)).setWidth 32)

/-- `ComputeShift`. -/
def computeShift (depth : Nat) : Nat := if depth ≠ 0 then depth.log2 + 1 else 0

/-- `DecodeVregIndex`. -/
def decodeVregIndex (id : BitVec 32) (shift : Nat) : Option (BitVec 32) :=
  if 32 ≤ shift then none
  else if 0 ≤ id.toInt then some (id.sshiftRight shift)
  else some (-((-id).sshiftRight shift))

/-- `DecodeDeoptDepth`. -/
def decodeDeoptDepth (id : BitVec 32) (shift : Nat) : Option (BitVec 64) :=
  if 32 ≤ shift then none
  else
    let mask := ((1#32 <<< shift) - 1).signExtend 64
    if 0 ≤ id.toInt then some (id.signExtend 64 &&& mask) else some ((-id).signExtend 64 &&& mask)

/-- The id that `GenARKDeopt` stores for a virtual register whose value is `value`. -/
def storedId (m : Nat) (index : Int) (depth : Nat) (value : DeoptWord) : Option (BitVec 16) := do
  let encodeIndex ← encodeDeoptVregIndex (BitVec.ofInt 32 index) (BitVec.ofNat 64 depth) (computeShift m)
  return (← arkDeopt (.intType encodeIndex) value).id

/-- The index and the depth that are read from the stored entry, as in `ParseArkDeopt` and `CollectVregs`. -/
def readBack (leb : Leb128) (m : Nat) (index : Int) (depth : Nat) (value : DeoptWord) (rest : List UInt8) :
    Option (Int × Nat) := do
  let shift := computeShift m
  let encodeIndex ← encodeDeoptVregIndex (BitVec.ofInt 32 index) (BitVec.ofNat 64 depth) shift
  let deopt ← arkDeopt (.intType encodeIndex) value
  let bytes ← encodeVRegsInfo leb deopt.id deopt.kind
  let (vregsInfo, _) := leb.decodeSigned (bytes ++ rest)
  let (id, _) := decodeVRegsInfo vregsInfo
  let index ← decodeVregIndex (id.signExtend 32) shift
  let depth ← decodeDeoptDepth (id.signExtend 32) shift
  return (index.toInt, depth.toNat)

/-- The virtual registers of a method, and the special ones of `SpecVregIndex`. -/
def IsVregIndex (index : Int) : Prop := (0 ≤ index ∧ index ≤ 65535) ∨ (-12 ≤ index ∧ index ≤ -1)

/-- The index with the depth below it is a 16-bit number; the least one is no positive number. -/
def FitsVRegId (m : Nat) (index : Int) (depth : Nat) : Prop :=
  computeShift m < 32 ∧
    (index.natAbs * 2 ^ computeShift m + depth ≤ 32767 ∨
      (index ≤ 0 ∧ index.natAbs * 2 ^ computeShift m + depth = 32768))

/-! ## What is stored -/

variable {depth shift : Nat} {index : Int}

theorem lt_two_pow_computeShift {m : Nat} (le : depth ≤ m) : depth < 2 ^ computeShift m := by
  by_cases zero : m = 0
  · subst zero
    rw [computeShift, if_neg (by simp)]
    omega
  · rw [computeShift, if_pos zero]
    exact Nat.lt_of_le_of_lt le Nat.lt_log2_self

/-- The low 32 bits of the magnitude: the index above the depth. -/
theorem setWidth_magnitude (x : BitVec 32) (low : depth < 2 ^ shift) (narrow : shift < 32) :
    ((x <<< shift).signExtend 64 ||| BitVec.ofNat 64 depth).setWidth 32 =
      BitVec.ofNat 32 (x.toNat * 2 ^ shift + depth) := by
  have bound : depth < 2 ^ 32 := Nat.lt_trans low (Nat.pow_lt_pow_right (by decide) narrow)
  have extended : ((x <<< shift).signExtend 64).setWidth 32 = x <<< shift := by
    apply BitVec.eq_of_getLsbD_eq
    intro i below
    rw [BitVec.getLsbD_setWidth, BitVec.getLsbD_signExtend]
    simp [below, show i < 64 by omega]
  have sum : x.toNat * 2 ^ shift + depth = x.toNat <<< shift ||| depth := by
    rw [← Nat.shiftLeft_add_eq_or_of_lt low, Nat.shiftLeft_eq]
  rw [BitVec.setWidth_or, extended]
  apply BitVec.eq_of_toNat_eq
  rw [BitVec.toNat_or, BitVec.toNat_shiftLeft, BitVec.toNat_setWidth, BitVec.toNat_ofNat, BitVec.toNat_ofNat,
    sum, Nat.or_mod_two_pow, Nat.mod_eq_of_lt (show depth < 2 ^ 64 by omega)]

theorem toNat_ofInt_of_nonneg (nonneg : 0 ≤ index) (bound : index ≤ 65535) :
    (BitVec.ofInt 32 index).toNat = index.natAbs := by
  rw [BitVec.toNat_ofInt]
  omega

theorem toInt_ofInt_vreg (vreg : IsVregIndex index) : (BitVec.ofInt 32 index).toInt = index := by
  rw [BitVec.toInt_ofInt]
  apply Int.bmod_eq_of_le
  · rcases vreg with ⟨_, _⟩ | ⟨_, _⟩ <;> omega
  · rcases vreg with ⟨_, _⟩ | ⟨_, _⟩ <;> omega

/-- What is stored: 16 bits of the index with the depth below it, with the sign of the index. -/
theorem encodeDeoptVregIndex_eq (vreg : IsVregIndex index) (low : depth < 2 ^ shift) (narrow : shift < 32) :
    ∃ word, encodeDeoptVregIndex (BitVec.ofInt 32 index) (BitVec.ofNat 64 depth) shift = some word ∧
      (word.setWidth 16).toInt =
        Int.bmod (if 0 ≤ index then (index.natAbs * 2 ^ shift + depth : Nat)
          else -(index.natAbs * 2 ^ shift + depth : Nat)) (2 ^ 16) := by
  rw [encodeDeoptVregIndex, if_neg (by omega), toInt_ofInt_vreg vreg]
  by_cases nonneg : 0 ≤ index
  · have bound : index ≤ 65535 := by
      rcases vreg with ⟨_, le⟩ | ⟨_, le⟩ <;> omega
    rw [if_pos nonneg, if_pos nonneg]
    refine ⟨_, rfl, ?_⟩
    rw [setWidth_magnitude _ low narrow, toNat_ofInt_of_nonneg nonneg bound, BitVec.toInt_setWidth,
      BitVec.toNat_ofNat]
    generalize index.natAbs * 2 ^ shift + depth = magnitude
    simp only [Int.bmod]
    omega
  · have negated : -BitVec.ofInt 32 index = BitVec.ofInt 32 (-index) := BitVec.ofInt_neg.symm
    have bound : -index ≤ 65535 := by
      rcases vreg with ⟨ge, _⟩ | ⟨ge, _⟩ <;> omega
    rw [if_neg nonneg, if_neg nonneg]
    refine ⟨_, rfl, ?_⟩
    rw [BitVec.setWidth_neg_of_le (by decide), negated, setWidth_magnitude _ low narrow,
      toNat_ofInt_of_nonneg (by omega) bound, BitVec.setWidth_neg_of_le (by decide), BitVec.toInt_neg,
      BitVec.toInt_setWidth, BitVec.toNat_ofNat, Int.natAbs_neg]
    generalize index.natAbs * 2 ^ shift + depth = magnitude
    simp only [Int.bmod]
    omega

/-! ## What is read -/

theorem toNat_eq_toInt {w : Nat} {x : BitVec w} (nonneg : 0 ≤ x.toInt) : (x.toNat : Int) = x.toInt := by
  rw [BitVec.toInt_eq_toNat_cond] at nonneg ⊢
  have := x.isLt
  split at nonneg
  · rw [if_pos ‹_›]
  · omega

/-- The magnitude of an id as a 32-bit number. -/
theorem exists_magnitude (id : BitVec 16) :
    ∃ x : BitVec 32, (x = if 0 ≤ id.toInt then id.signExtend 32 else -id.signExtend 32) ∧
      x.toInt = id.toInt.natAbs ∧ id.toInt.natAbs ≤ 32768 := by
  have extended : (id.signExtend 32).toInt = id.toInt := BitVec.toInt_signExtend_of_le (by decide)
  have low := BitVec.le_toInt id
  have high := BitVec.toInt_lt (x := id)
  refine ⟨_, rfl, ?_, by omega⟩
  by_cases nonneg : 0 ≤ id.toInt
  · rw [if_pos nonneg, extended]
    omega
  · rw [if_neg nonneg, BitVec.toInt_neg, extended]
    simp only [Int.bmod]
    omega

theorem decodeVregIndex_eq (id : BitVec 16) (narrow : shift < 32) :
    ∃ index, decodeVregIndex (id.signExtend 32) shift = some index ∧
      index.toInt = if 0 ≤ id.toInt then ((id.toInt.natAbs / 2 ^ shift : Nat) : Int)
        else -((id.toInt.natAbs / 2 ^ shift : Nat) : Int) := by
  obtain ⟨x, is, magnitude, bound⟩ := exists_magnitude id
  have shifted : (x.sshiftRight shift).toInt = ((id.toInt.natAbs / 2 ^ shift : Nat) : Int) := by
    rw [BitVec.toInt_sshiftRight, magnitude, Int.shiftRight_eq_div_pow]
    rfl
  have less : id.toInt.natAbs / 2 ^ shift ≤ 32768 := Nat.le_trans (Nat.div_le_self _ _) bound
  have extended : (id.signExtend 32).toInt = id.toInt := BitVec.toInt_signExtend_of_le (by decide)
  rw [decodeVregIndex, if_neg (by omega), extended]
  by_cases nonneg : 0 ≤ id.toInt
  · rw [if_pos nonneg] at is ⊢
    rw [if_pos nonneg, ← is]
    exact ⟨_, rfl, shifted⟩
  · rw [if_neg nonneg] at is ⊢
    rw [if_neg nonneg, ← is]
    refine ⟨_, rfl, ?_⟩
    rw [BitVec.toInt_neg, shifted]
    generalize id.toInt.natAbs / 2 ^ shift = quotient at less
    apply Int.bmod_eq_of_le
    · omega
    · omega

theorem mask_eq (narrow : shift < 32) :
    ((1#32 <<< shift) - 1).signExtend 64 = BitVec.ofNat 64 (2 ^ shift - 1) := by
  have all : ∀ s < 32, ((1#32 <<< s) - 1).signExtend 64 = BitVec.ofNat 64 (2 ^ s - 1) := by decide
  exact all shift narrow

theorem decodeDeoptDepth_eq (id : BitVec 16) (narrow : shift < 32) :
    ∃ depth, decodeDeoptDepth (id.signExtend 32) shift = some depth ∧
      depth.toNat = id.toInt.natAbs % 2 ^ shift := by
  obtain ⟨x, is, magnitude, bound⟩ := exists_magnitude id
  have wide : (x.signExtend 64).toNat = id.toInt.natAbs := by
    have extended : (x.signExtend 64).toInt = x.toInt := BitVec.toInt_signExtend_of_le (by decide)
    have same := toNat_eq_toInt (show 0 ≤ (x.signExtend 64).toInt by omega)
    omega
  have masked : (x.signExtend 64 &&& BitVec.ofNat 64 (2 ^ shift - 1)).toNat =
      id.toInt.natAbs % 2 ^ shift := by
    have small : 2 ^ shift ≤ 2 ^ 32 := Nat.pow_le_pow_right (by decide) (by omega)
    rw [BitVec.toNat_and, wide, BitVec.toNat_ofNat, Nat.mod_eq_of_lt (by omega),
      Nat.and_two_pow_sub_one_eq_mod]
  have extended : (id.signExtend 32).toInt = id.toInt := BitVec.toInt_signExtend_of_le (by decide)
  rw [decodeDeoptDepth, if_neg (by omega), mask_eq narrow]
  simp only [extended]
  by_cases nonneg : 0 ≤ id.toInt
  · rw [if_pos nonneg] at is ⊢
    rw [← is]
    exact ⟨_, rfl, masked⟩
  · rw [if_neg nonneg] at is ⊢
    rw [← is]
    exact ⟨_, rfl, masked⟩

/-- Quotient and remainder tell the number. -/
theorem div_mod_iff {v n p : Nat} (low : depth < p) : (v / p = n ∧ v % p = depth) ↔ v = n * p + depth := by
  constructor
  · rintro ⟨rfl, rfl⟩
    rw [Nat.mul_comm]
    exact (Nat.div_add_mod v p).symm
  · rintro rfl
    rw [Nat.mul_comm, Nat.mul_add_div (by omega), Nat.div_eq_of_lt low, Nat.mul_add_mod,
      Nat.mod_eq_of_lt low]
    exact ⟨rfl, rfl⟩

/-- The kind of an entry and its leb128 code do not change the id. -/
theorem decode_encodeVRegsInfo {leb : Leb128} (lawful : leb.Lawful) (id : BitVec 16) (value : DeoptWord)
    {word : BitVec 32} (same : word.setWidth 16 = id) (rest : List UInt8) :
    ∃ deopt bytes, arkDeopt (.intType word) value = some deopt ∧ deopt.id = id ∧
      encodeVRegsInfo leb deopt.id deopt.kind = some bytes ∧
      (decodeVRegsInfo (leb.decodeSigned (bytes ++ rest)).1).1 = id := by
  have low := BitVec.le_toInt id
  have high := BitVec.toInt_lt (x := id)
  have decodes : ∀ b : Int, 0 ≤ b → b ≤ 1 →
      (decodeVRegsInfo (leb.decodeSigned (leb.encodeSigned (id.toInt * 2 + b) ++ rest)).1).1 = id := by
    intro b zero one
    rw [lawful.decode _ rest (by constructor <;> omega), decodeVRegsInfo]
    have half : (id.toInt * 2 + b) / 2 = id.toInt := by omega
    simp only [half, BitVec.ofInt_toInt]
  cases value with
  | intType v => exact ⟨⟨_, .constant, _⟩, _, rfl, same, rfl, by simpa only [same] using decodes 0 (by omega) (by omega)⟩
  | largeInt v =>
    exact ⟨⟨_, .constantNdex, _⟩, _, rfl, same, rfl, by simpa only [same] using decodes 0 (by omega) (by omega)⟩
  | dwarfRegAndOffset v =>
    exact ⟨⟨_, .indirect, _⟩, _, rfl, same, rfl, by simpa only [same] using decodes 1 (by omega) (by omega)⟩

/-! ## The round trip -/

/-- The index and the depth that an id stands for. -/
def decoded (id : BitVec 16) (shift : Nat) : Int × Nat :=
  (if 0 ≤ id.toInt then ((id.toInt.natAbs / 2 ^ shift : Nat) : Int) else -((id.toInt.natAbs / 2 ^ shift : Nat) : Int),
    id.toInt.natAbs % 2 ^ shift)

theorem readBack_eq {leb : Leb128} (lawful : leb.Lawful) {m : Nat} (vreg : IsVregIndex index)
    (inside : depth ≤ m) (narrow : computeShift m < 32) (value : DeoptWord) (rest : List UInt8) :
    ∃ id, storedId m index depth value = some id ∧
      readBack leb m index depth value rest = some (decoded id (computeShift m)) ∧
      id.toInt = Int.bmod (if 0 ≤ index then (index.natAbs * 2 ^ computeShift m + depth : Nat)
          else -(index.natAbs * 2 ^ computeShift m + depth : Nat)) (2 ^ 16) := by
  obtain ⟨word, encode, stored⟩ := encodeDeoptVregIndex_eq vreg (lt_two_pow_computeShift inside) narrow
  obtain ⟨deopt, bytes, entry, id, encode', decode⟩ :=
    decode_encodeVRegsInfo lawful (word.setWidth 16) value rfl rest
  obtain ⟨index', decodeIndex, is_index⟩ := decodeVregIndex_eq (word.setWidth 16) narrow
  obtain ⟨depth', decodeDepth, is_depth⟩ := decodeDeoptDepth_eq (word.setWidth 16) narrow
  refine ⟨word.setWidth 16, ?_, ?_, stored⟩
  · simp only [storedId, encode, entry, Option.bind_eq_bind, Option.bind_some, id, Option.pure_def]
  · simp only [readBack, encode, entry, encode', decode, decodeIndex, decodeDepth, Option.bind_eq_bind,
      Option.bind_some, is_index, is_depth, decoded, Option.pure_def]

/-- The pair is read from an id exactly when the id is its number with the right sign. -/
theorem decoded_iff (id : BitVec 16) (low : depth < 2 ^ shift) (index : Int) :
    decoded id shift = (index, depth) ↔
      id.toInt.natAbs = index.natAbs * 2 ^ shift + depth ∧
        (index = 0 ∨ (0 ≤ id.toInt ↔ 0 ≤ index)) := by
  have parts := div_mod_iff (v := id.toInt.natAbs) (n := index.natAbs) low
  rw [← parts, decoded, Prod.mk.injEq]
  generalize id.toInt.natAbs / 2 ^ shift = quotient
  by_cases nonneg : 0 ≤ id.toInt
  · simp only [nonneg, if_true, true_iff]
    omega
  · simp only [nonneg, if_false, false_iff]
    omega

/-- An index and a depth are read back exactly when their number fits into an id; and then no other pair has
    the same id. -/
theorem readBack_iff {leb : Leb128} (lawful : leb.Lawful) {m depth : Nat} (inside : depth ≤ m) {index : Int}
    (vreg : IsVregIndex index) (value : DeoptWord) (rest : List UInt8) :
    (readBack leb m index depth value rest = some (index, depth) ↔ FitsVRegId m index depth) ∧
      ∀ index' depth' value', depth' ≤ m → IsVregIndex index' →
        FitsVRegId m index depth → FitsVRegId m index' depth' →
        storedId m index depth value = storedId m index' depth' value' → index = index' ∧ depth = depth' := by
  have trip : ∀ index depth value, depth ≤ m → IsVregIndex index → computeShift m < 32 →
      ∃ id, storedId m index depth value = some id ∧
        readBack leb m index depth value rest = some (decoded id (computeShift m)) ∧
        (decoded id (computeShift m) = (index, depth) ↔ FitsVRegId m index depth) := by
    intro index depth value inside vreg narrow
    obtain ⟨id, stored, read, number⟩ := readBack_eq lawful vreg inside narrow value rest
    refine ⟨id, stored, read, ?_⟩
    rw [decoded_iff id (lt_two_pow_computeShift inside), FitsVRegId]
    have zero : index = 0 → index.natAbs * 2 ^ computeShift m = 0 := by
      rintro rfl
      simp
    have positive : index ≠ 0 → 0 < index.natAbs * 2 ^ computeShift m := by
      intro nonzero
      exact Nat.mul_pos (by omega) (Nat.two_pow_pos _)
    generalize index.natAbs * 2 ^ computeShift m = product at number zero positive ⊢
    by_cases nonneg : 0 ≤ index
    · rw [if_pos nonneg, Int.bmod] at number
      omega
    · rw [if_neg nonneg, Int.bmod] at number
      omega
  constructor
  · by_cases narrow : computeShift m < 32
    · obtain ⟨id, _, read, iff⟩ := trip index depth value inside vreg narrow
      rw [read, Option.some.injEq]
      exact iff
    · have undefined : readBack leb m index depth value rest = none := by
        rw [readBack, encodeDeoptVregIndex, if_pos (by omega)]
        rfl
      rw [undefined]
      constructor
      · intro no
        cases no
      · intro fits
        exact absurd fits.1 narrow
  · intro index' depth' value' inside' vreg' fits fits' same
    obtain ⟨id, stored, _, iff⟩ := trip index depth value inside vreg fits.1
    obtain ⟨id', stored', _, iff'⟩ := trip index' depth' value' inside' vreg' fits.1
    rw [stored, stored', Option.some.injEq] at same
    subst same
    have equal := (iff.mpr fits).symm.trans (iff'.mpr fits')
    exact Prod.mk.inj equal

theorem readBack_iff_depth_five :
    Leb128.standard.Lawful ∧ IsVregIndex 4095 ∧ FitsVRegId 5 4095 3 ∧
      (readBack Leb128.standard 5 4095 3 (.intType 0) [] = some (4095, 3) ↔ FitsVRegId 5 4095 3) :=
  ⟨Leb128.standard_lawful, .inl (by decide), ⟨by decide, .inl (by decide)⟩,
    (readBack_iff Leb128.standard_lawful (by decide) (.inl (by decide)) (.intType 0) []).1⟩

/-- A virtual register below five inlined methods whose id is that of the register 0. -/
theorem readBack_differs :
    0 ≤ 5 ∧ IsVregIndex 8192 ∧ IsVregIndex 0 ∧
      readBack Leb128.standard 5 8192 0 (.intType 0) [] = some (0, 0) ∧
      readBack Leb128.standard 5 8192 0 (.intType 0) [] ≠ some (8192, 0) ∧
      storedId 5 8192 0 (.intType 0) = storedId 5 0 0 (.intType 0) := by
  refine ⟨by decide, .inl (by decide), .inl (by decide), ?_, ?_, ?_⟩
  · decide +kernel
  · decide +kernel
  · decide +kernel

end StackMap

end ArkRuntime
