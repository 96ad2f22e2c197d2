import ArkRuntime.KeyHash.Doubles

/-!
# What equal keys are

The encodings of different values differ. Numbers that are equal and not one value are an `int` and
a double, or the two zeros; all other equal keys are objects of the heap with one contents.
-/

namespace ArkRuntime

namespace KeyHash

variable {β : Type} {x y : TaggedKey} {n : Int32} {d : Double} {heap : KeyHeap}

/-! ## The encodings differ -/

theorem toUInt32_tagInt (n : Int32) : (TaggedKey.int n).getRawData.toUInt32.toInt32 = n := by
  have low : n.toInt64.toUInt64.toUInt32 = n.toUInt32 := by
    apply UInt32.toBitVec_inj.mp
    apply BitVec.eq_of_getLsbD_eq
    intro i inside
    have below : i < 64 := by omega
    simp [BitVec.getElem_signExtend, inside, below]
  have tag : tagMark.toUInt32 = 0 := rfl
  rw [TaggedKey.getRawData, UInt64.toUInt32_or, low, tag, UInt32.or_zero, Int32.toInt32_toUInt32]

theorem tagMark_le_int (n : Int32) : tagMark.toNat ≤ (TaggedKey.int n).getRawData.toNat := by
  rw [TaggedKey.getRawData, UInt64.toNat_or]
  exact Nat.right_le_or

variable {a b bits : UInt64}

theorem isImpureNaN_iff : isImpureNaN bits = true ↔ 0xFFFE000000000000 ≤ bits.toNat := by
  have start : (tagMark - doubleEncodeOffset).toNat = 0xFFFE000000000000 := rfl
  rw [isImpureNaN, decide_eq_true_eq, UInt64.le_iff_toNat_le, start]

theorem isNaN_of_isImpureNaN (impure : isImpureNaN bits = true) : isNaN bits = true := by
  rw [isImpureNaN_iff] at impure
  have below := bits.toNat_lt
  have exponent : JSNumber.exponentField bits = 0x7FF := by
    apply UInt64.toNat_inj.mp
    rw [toNat_exponentField, show (0x7FF : UInt64).toNat = 2047 from rfl]
    omega
  have significand : bits &&& JSNumber.doubleSignificandMask ≠ 0 := by
    intro eq
    have zero := toNat_significand bits
    rw [eq, UInt64.toNat_zero] at zero
    omega
  rw [isNaN, exponent, beq_self_eq_true, Bool.true_and, bne_iff_ne]
  exact significand

theorem Double.toNat_lt (d : Double) : d.bits.toNat < 0xFFFE000000000000 := by
  have pure := Bool.eq_false_iff.mp d.pure
  rwa [ne_eq, isImpureNaN_iff, Nat.not_le] at pure

theorem toNat_rawDouble (d : Double) :
    (TaggedKey.double d).getRawData.toNat = d.bits.toNat + 2 ^ 48 := by
  have below := d.toNat_lt
  have offset : doubleEncodeOffset.toNat = 2 ^ 48 := rfl
  rw [TaggedKey.getRawData, UInt64.toNat_add, offset]
  omega

theorem Address.toNat_lt (address : Address) : address.value.toNat < 2 ^ 48 := by
  have unmasked : address.value = address.value &&& ~~~tagHeapobjectMask := by
    apply UInt64.toBitVec_inj.mp
    apply BitVec.eq_of_getLsbD_eq
    intro i inside
    have bit := congrArg (fun word : UInt64 => word.toBitVec.getLsbD i) address.tagged
    simp_all
  rw [unmasked, UInt64.toNat_and]
  exact Nat.lt_of_le_of_lt Nat.and_le_right (by decide)

theorem Special.toNat_lt (value : Special) : value.value.toNat < 2 ^ 48 := by
  cases value <;> decide

theorem Special.ne_address (value : Special) (address : Address) :
    value.value ≠ address.value := by
  intro same
  have masked := address.tagged
  rw [← same] at masked
  cases value <;> exact absurd masked (by decide)

/-- The encodings of different values differ, so `==` is their equality. -/
theorem getRawData_injective : Function.Injective TaggedKey.getRawData := by
  intro x y same
  have tag : tagMark.toNat = 0xFFFF000000000000 := rfl
  have size := congrArg UInt64.toNat same
  cases x with
  | int n =>
    have high := tagMark_le_int n
    cases y with
    | int m => rw [← toUInt32_tagInt n, same, toUInt32_tagInt m]
    | double d =>
      have := toNat_rawDouble d
      have := d.toNat_lt
      omega
    | special value =>
      have : (TaggedKey.special value).getRawData.toNat < 2 ^ 48 := value.toNat_lt
      omega
    | heapObject address =>
      have : (TaggedKey.heapObject address).getRawData.toNat < 2 ^ 48 := address.toNat_lt
      omega
  | double d =>
    have wide := toNat_rawDouble d
    have below := d.toNat_lt
    cases y with
    | int m =>
      have := tagMark_le_int m
      omega
    | double e =>
      have := toNat_rawDouble e
      exact congrArg TaggedKey.double (Double.ext (UInt64.toNat_inj.mp (by omega)))
    | special value =>
      have : (TaggedKey.special value).getRawData.toNat < 2 ^ 48 := value.toNat_lt
      omega
    | heapObject address =>
      have : (TaggedKey.heapObject address).getRawData.toNat < 2 ^ 48 := address.toNat_lt
      omega
  | special value =>
    have low : (TaggedKey.special value).getRawData.toNat < 2 ^ 48 := value.toNat_lt
    cases y with
    | int m =>
      have := tagMark_le_int m
      omega
    | double e =>
      have := toNat_rawDouble e
      omega
    | special value' =>
      have same : value.value = value'.value := same
      cases value <;> cases value' <;> first | rfl | exact absurd same (by decide)
    | heapObject address => exact absurd same (value.ne_address address)
  | heapObject address =>
    have low : (TaggedKey.heapObject address).getRawData.toNat < 2 ^ 48 := address.toNat_lt
    cases y with
    | int m =>
      have := tagMark_le_int m
      omega
    | double e =>
      have := toNat_rawDouble e
      omega
    | special value => exact absurd same.symm (value.ne_address address)
    | heapObject address' => exact congrArg TaggedKey.heapObject (Address.ext same)

/-! ## Equal numbers -/

theorem doubleEq_iff (a b : UInt64) : doubleEq a b = true ↔
    isNaN a = false ∧ isNaN b = false ∧
      (a = b ∨ isZeroDouble a = true ∧ isZeroDouble b = true) := by
  simp only [doubleEq, Bool.and_eq_true, Bool.not_eq_true', Bool.or_eq_true, beq_iff_eq, and_assoc]

theorem eq_of_signbit (zeroA : isZeroDouble a = true) (zeroB : isZeroDouble b = true)
    (sign : signbit a = signbit b) : a = b := by
  rw [isZeroDouble_iff] at zeroA zeroB
  rw [signbit_eq, signbit_eq, decide_eq_decide] at sign
  apply UInt64.toNat_inj.mp
  have := a.toNat_lt
  have := b.toNat_lt
  omega

variable (platform : Platform)

theorem castInt32_of_doubleEq (same : doubleEq (JSNumber.doubleOfInt n) bits = true) :
    platform.castInt32 bits = n := by
  obtain ⟨-, -, eq | ⟨zeroN, zero⟩⟩ := (doubleEq_iff _ _).mp same
  · rw [← eq, castInt32_doubleOfInt]
  · rw [castInt32_of_isZero platform zero, ← castInt32_doubleOfInt platform n,
      castInt32_of_isZero platform zeroN]

/-- A key that equals an `int`. -/
def IsInt (n : Int32) : TaggedKey → Prop
  | .int m => m = n
  | .double d => doubleEq (JSNumber.doubleOfInt n) d.bits = true
  | _ => False

theorem linkedHash_of_isInt (isInt : IsInt n x) (heap : KeyHeap) :
    linkedHash platform x heap =
      ((platform.rawHash (TaggedKey.int n).getRawData).toInt32, heap) := by
  cases x with
  | int m =>
    cases isInt
    rfl
  | double d =>
    have cast := castInt32_of_doubleEq platform isInt
    have same : doubleEq (JSNumber.doubleOfInt n) d.bits = true := isInt
    simp only [linkedHash, TaggedKey.tryCastDoubleToInt32, cast, same, Bool.not_true,
      Bool.false_eq_true, if_false]
  | special value => exact isInt.elim
  | heapObject address => exact isInt.elim

theorem taggedNodeHash_of_isInt (isInt : IsInt n x) (heap : KeyHeap) :
    taggedNodeHash platform x heap = (n, heap) := by
  cases x with
  | int m =>
    cases isInt
    rfl
  | double d =>
    have cast := castInt32_of_doubleEq platform isInt
    have same : doubleEq (JSNumber.doubleOfInt n) d.bits = true := isInt
    simp only [taggedNodeHash, cast, same, if_true]
  | special value => exact isInt.elim
  | heapObject address => exact isInt.elim

/-- Two objects of the heap that are equal by their contents. -/
def SameContents (compare : EcmaString → EcmaString → Bool) (heap : KeyHeap) (x y : TaggedKey) : Prop :=
  ∃ a b, x = .heapObject a ∧ y = .heapObject b ∧ a ≠ b ∧
    sameObject compare (heap.object a) (heap.object b) = true

theorem doubleEq_comm (a b : UInt64) : doubleEq a b = doubleEq b a := by
  rw [Bool.eq_iff_iff, doubleEq_iff, doubleEq_iff]
  constructor
  · rintro ⟨nanA, nanB, eq | ⟨zeroA, zeroB⟩⟩
    · exact ⟨nanB, nanA, .inl eq.symm⟩
    · exact ⟨nanB, nanA, .inr ⟨zeroB, zeroA⟩⟩
  · rintro ⟨nanB, nanA, eq | ⟨zeroB, zeroA⟩⟩
    · exact ⟨nanA, nanB, .inl eq.symm⟩
    · exact ⟨nanA, nanB, .inr ⟨zeroA, zeroB⟩⟩

/-- Numbers that are equal by value, not `NaN`, and are not one value. -/
theorem isInt_of_doubleEq (different : x ≠ y) (numberX : x.extractNumber = some a)
    (numberY : y.extractNumber = some b) (same : doubleEq a b = true) : ∃ n, IsInt n x ∧ IsInt n y := by
  cases x with
  | int n =>
    cases Option.some.inj numberX
    cases y with
    | int m =>
      cases Option.some.inj numberY
      have eq := castInt32_of_doubleEq ⟨fun _ => 0, fun _ => 0⟩ same
      rw [castInt32_doubleOfInt] at eq
      exact absurd (congrArg TaggedKey.int eq.symm) different
    | double e =>
      cases Option.some.inj numberY
      exact ⟨n, rfl, same⟩
    | special value => cases numberY
    | heapObject address => cases numberY
  | double d =>
    cases Option.some.inj numberX
    cases y with
    | int m =>
      cases Option.some.inj numberY
      exact ⟨m, (doubleEq_comm _ _).trans same, rfl⟩
    | double e =>
      cases Option.some.inj numberY
      obtain ⟨nanD, nanE, eq | ⟨zeroD, zeroE⟩⟩ := (doubleEq_iff _ _).mp same
      · exact absurd (congrArg TaggedKey.double (Double.ext eq)) different
      · have zero : isNaN (JSNumber.doubleOfInt 0) = false ∧
            isZeroDouble (JSNumber.doubleOfInt 0) = true := by decide
        exact ⟨0, (doubleEq_iff _ _).mpr ⟨zero.1, nanD, .inr ⟨zero.2, zeroD⟩⟩,
          (doubleEq_iff _ _).mpr ⟨zero.1, nanE, .inr ⟨zero.2, zeroE⟩⟩⟩
    | special value => cases numberY
    | heapObject address => cases numberY
  | special value => cases numberX
  | heapObject address => cases numberX

/-- Two doubles that are `NaN`. -/
def BothNaN (x y : TaggedKey) : Prop :=
  ∃ d e, x = .double d ∧ y = .double e ∧ isNaN d.bits = true ∧ isNaN e.bits = true

theorem bothNaN_of_isNaN (numberX : x.extractNumber = some a) (numberY : y.extractNumber = some b)
    (nanX : isNaN a = true) (nanY : isNaN b = true) : BothNaN x y := by
  have double {z : TaggedKey} {c : UInt64} (number : z.extractNumber = some c) (nan : isNaN c = true) :
      ∃ d, z = .double d ∧ isNaN d.bits = true := by
    cases z with
    | int n =>
      cases Option.some.inj number
      rw [not_isNaN_doubleOfInt] at nan
      cases nan
    | double d =>
      cases Option.some.inj number
      exact ⟨d, rfl, nan⟩
    | special value => cases number
    | heapObject address => cases number
  obtain ⟨d, rfl, nanD⟩ := double numberX nanX
  obtain ⟨e, rfl, nanE⟩ := double numberY nanY
  exact ⟨d, e, rfl, rfl, nanD, nanE⟩

theorem sameContents_of_sameHeapObject {compare : EcmaString → EcmaString → Bool}
    (same : sameHeapObject compare heap x y = true) (different : x ≠ y) :
    SameContents compare heap x y := by
  cases x with
  | heapObject a =>
    cases y with
    | heapObject b =>
      exact ⟨a, b, rfl, rfl, fun eq => different (congrArg TaggedKey.heapObject eq), same⟩
    | int n => cases same
    | double d => cases same
    | special value => cases same
  | int n => cases same
  | double d => cases same
  | special value => cases same

theorem sameValueZero_cases (same : sameValueZero heap x y = true) (different : x ≠ y) :
    (∃ n, IsInt n x ∧ IsInt n y) ∨ BothNaN x y ∨ SameContents EcmaString.stringsAreEqual heap x y := by
  have rawDifferent : x.getRawData ≠ y.getRawData := fun eq => different (getRawData_injective eq)
  simp only [sameValueZero, if_neg rawDifferent] at same
  split at same
  · rename_i xValue yValue numberX numberY
    rw [Bool.or_eq_true, Bool.and_eq_true] at same
    rcases same with equal | ⟨nanX, nanY⟩
    · exact .inl (isInt_of_doubleEq different numberX numberY equal)
    · exact .inr (.inl (bothNaN_of_isNaN numberX numberY nanX nanY))
  · exact .inr (.inr (sameContents_of_sameHeapObject same different))

/-- An `int` and the double that is equal to it. -/
def IntAndDouble (x y : TaggedKey) (n : Int32) (d : Double) : Prop :=
  d.bits = JSNumber.doubleOfInt n ∧ (x = .int n ∧ y = .double d ∨ x = .double d ∧ y = .int n)

theorem isInt_of_intAndDouble (pair : IntAndDouble x y n d) : IsInt n x ∧ IsInt n y := by
  have same : doubleEq (JSNumber.doubleOfInt n) d.bits = true :=
    (doubleEq_iff _ _).mpr ⟨not_isNaN_doubleOfInt n, pair.1 ▸ not_isNaN_doubleOfInt n,
      .inl pair.1.symm⟩
  obtain ⟨-, ⟨rfl, rfl⟩ | ⟨rfl, rfl⟩⟩ := pair
  · exact ⟨rfl, same⟩
  · exact ⟨same, rfl⟩

/-- Doubles of one sign that are equal are the same. -/
theorem intAndDouble_of_sameValueNumberic (different : x ≠ y) (numberX : x.extractNumber = some a)
    (numberY : y.extractNumber = some b) (same : sameValueNumberic a b = true) (equal : doubleEq a b = true) :
    ∃ n d, IntAndDouble x y n d := by
  have sign : signbit a = signbit b := by
    rw [sameValueNumberic, equal] at same
    exact beq_iff_eq.mp same
  have bits : a = b := by
    obtain ⟨-, -, eq | ⟨zeroA, zeroB⟩⟩ := (doubleEq_iff _ _).mp equal
    · exact eq
    · exact eq_of_signbit zeroA zeroB sign
  cases x with
  | int n =>
    cases Option.some.inj numberX
    cases y with
    | int m =>
      obtain ⟨k, isN, isM⟩ := isInt_of_doubleEq different numberX numberY equal
      exact absurd (congrArg TaggedKey.int (isN.trans isM.symm)) different
    | double e =>
      cases Option.some.inj numberY
      exact ⟨n, e, bits.symm, .inl ⟨rfl, rfl⟩⟩
    | special value => cases numberY
    | heapObject address => cases numberY
  | double d =>
    cases Option.some.inj numberX
    cases y with
    | int m =>
      cases Option.some.inj numberY
      exact ⟨m, d, bits, .inr ⟨rfl, rfl⟩⟩
    | double e =>
      cases Option.some.inj numberY
      exact absurd (congrArg TaggedKey.double (Double.ext bits)) different
    | special value => cases numberY
    | heapObject address => cases numberY
  | special value => cases numberX
  | heapObject address => cases numberX

theorem sameValue_cases (same : sameValue heap x y = true) (different : x ≠ y) :
    (∃ n d, IntAndDouble x y n d) ∨ BothNaN x y ∨ SameContents stringCompare heap x y := by
  have rawDifferent : x.getRawData ≠ y.getRawData := fun eq => different (getRawData_injective eq)
  simp only [sameValue, if_neg rawDifferent] at same
  split at same
  · cases same
  · split at same
    · rename_i xValue yValue numberX numberY
      by_cases equal : doubleEq xValue yValue = true
      · exact .inl (intAndDouble_of_sameValueNumberic different numberX numberY same equal)
      · have unequal : doubleEq xValue yValue = false := Bool.eq_false_iff.mpr equal
        rw [sameValueNumberic, unequal, Bool.not_false, if_pos rfl, Bool.and_eq_true] at same
        exact .inr (.inl (bothNaN_of_isNaN numberX numberY same.1 same.2))
    · exact .inr (.inr (sameContents_of_sameHeapObject same different))

end KeyHash

end ArkRuntime
