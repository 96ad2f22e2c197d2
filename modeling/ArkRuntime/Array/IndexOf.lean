import ArkRuntime.KeyHash.Equality

/-!
# `JSStableArray::IndexOf` and `LastIndexOf`

The search in the elements of a stable array (`ecmascript/js_stable_array.cpp`), which compares raw words where
`StrictEqual` compares numbers, strings and BigInts.
-/

namespace ArkRuntime

namespace JSStableArray

open KeyHash

/-! ## Elements -/

def specialHole : UInt64 := 0xFFFE000000000001

/-- A word of a mutant array of numbers: a hole, or a double that can be tagged. -/
structure NumberWord where
  bits : UInt64
  pure : bits ≠ specialHole → isImpureNaN bits = false

/-- The elements of a stable array: tagged values, or the words of a mutant array by their kind. -/
inductive Elements where
  | tagged (data : List TaggedKey)
  | int (data : List UInt64)
  | number (data : List NumberWord)

def Elements.length : Elements → Nat
  | tagged data => data.length
  | int data => data.length
  | number data => data.length

/-- `GetTaggedValueWithElementsKind` of a word of an array of `int`s. -/
def taggedOfInt (rawValue : UInt64) : TaggedKey :=
  if rawValue = specialHole then .special .hole else .int rawValue.toUInt32.toInt32

/-- `GetTaggedValueWithElementsKind` of a word of an array of doubles. -/
def taggedOfNumber (rawValue : NumberWord) : TaggedKey :=
  if number : rawValue.bits = specialHole then .special .hole else .double ⟨rawValue.bits, rawValue.pure number⟩

/-- `convertedCur`; there is none behind the elements. -/
def Elements.convertedCur (elements : Elements) (cur : Nat) : Option TaggedKey :=
  match elements with
  | tagged data => data[cur]?
  | int data => data[cur]?.map taggedOfInt
  | number data => data[cur]?.map taggedOfNumber

inductive IndexOfType where
  | IndexOf
  | LastIndexOf

/-- `IndexOfContext`, with the heap and with the index properties that the receiver inherits. -/
structure IndexOfContext where
  heap : KeyHeap
  elements : Elements
  inherited : Nat → Option TaggedKey
  searchElement : TaggedKey
  fromIndex : Nat
  length : Nat

/-! ## Equality -/

/-- `JSTaggedValue::StrictEqual`. -/
def strictEqual (heap : KeyHeap) (x y : TaggedKey) : Bool :=
  match x, y with
  | .int m, .int n => m == n
  | x, y =>
      match x.extractNumber, y.extractNumber with
      | some a, some b => doubleEq a b
      | _, _ => if x.getRawData = y.getRawData then true else sameHeapObject stringCompare heap x y

/-- `ElementIsStrictEqualTo` for a hole of the elements. -/
def elementIsStrictEqualTo (ctx : IndexOfContext) (index : Nat) : Bool :=
  match ctx.inherited index with
  | some value => strictEqual ctx.heap ctx.searchElement value
  | none => false

/-! ## The search -/

/-- A turn of the two loops: whether the element is found. -/
def isFound (ctx : IndexOfContext) (predicate : TaggedKey → Bool) (cur : Nat) : Option Bool := do
  let convertedCur ← ctx.elements.convertedCur cur
  if convertedCur.getRawData ≠ Special.hole.value then return predicate convertedCur
  else return elementIsStrictEqualTo ctx cur

/-- `FindRawData`, with so many elements to go. -/
def findRawDataFrom (ctx : IndexOfContext) (predicate : TaggedKey → Bool) : Nat → Nat → Option Int
  | _, 0 => some (-1)
  | cur, count + 1 => do
      if ← isFound ctx predicate cur then return cur
      else findRawDataFrom ctx predicate (cur + 1) count

def findRawData (ctx : IndexOfContext) (predicate : TaggedKey → Bool) : Option Int :=
  findRawDataFrom ctx predicate ctx.fromIndex (ctx.length - ctx.fromIndex)

/-- `FindLastRawData`, with the elements before an index to go. -/
def findLastRawDataFrom (ctx : IndexOfContext) (predicate : TaggedKey → Bool) : Nat → Option Int
  | 0 => some (-1)
  | cur + 1 => do
      if ← isFound ctx predicate cur then return cur
      else findLastRawDataFrom ctx predicate cur

def findLastRawData (ctx : IndexOfContext) (predicate : TaggedKey → Bool) : Option Int :=
  findLastRawDataFrom ctx predicate (ctx.fromIndex + 1)

def findRawDataDispatch (type : IndexOfType) (ctx : IndexOfContext) (predicate : TaggedKey → Bool) : Option Int :=
  match type with
  | .IndexOf => findRawData ctx predicate
  | .LastIndexOf => findLastRawData ctx predicate

/-! ## The predicates -/

def valueZero : UInt64 := tagMark
def valuePositiveZero : UInt64 := 0 + doubleEncodeOffset
def valueNegativeZero : UInt64 := 0x8000000000000000 + doubleEncodeOffset

/-- `IsExactlyZero`. -/
def isExactlyZero (cur : TaggedKey) : Bool :=
  cur.getRawData = valueZero ∨ cur.getRawData = valuePositiveZero ∨ cur.getRawData = valueNegativeZero

def indexOfZero (type : IndexOfType) (ctx : IndexOfContext) : Option Int :=
  findRawDataDispatch type ctx isExactlyZero

def indexOfInt32 (type : IndexOfType) (ctx : IndexOfContext) (untagged : Int32) : Option Int :=
  if untagged = 0 then indexOfZero type ctx
  else
    let targetInt32 := (TaggedKey.int untagged).getRawData
    let targetDouble := JSNumber.doubleOfInt untagged + doubleEncodeOffset
    findRawDataDispatch type ctx fun cur => cur.getRawData = targetInt32 ∨ cur.getRawData = targetDouble

/-- `NumberHelper::DoubleToInt` for 32 bits. -/
def doubleToInt (platform : Platform) (d : UInt64) : Int32 :=
  let exp : Int := (JSNumber.exponentField d).toNat - 1023
  if exp < 31 then platform.castInt32 d
  else if exp < 32 + 52 then
    let significand := (d &&& JSNumber.doubleSignificandMask) ||| JSNumber.doubleHiddenBit
    let ret := ((significand <<< UInt64.ofNat (exp - 52 + 64 - 32).toNat) >>> 32).toUInt32.toInt32
    if signbit d ∧ ret ≠ Int32.minValue then -ret else ret
  else 0

/-- `WithinInt32` of a double. -/
def withinInt32 (platform : Platform) (doubleValue : UInt64) : Bool :=
  if doubleValue = 0x8000000000000000 then false
  else doubleEq doubleValue (JSNumber.doubleOfInt (doubleToInt platform doubleValue))

def indexOfDouble (platform : Platform) (type : IndexOfType) (ctx : IndexOfContext) (untagged : Double) : Option Int :=
  if isNaN untagged.bits then some (-1)
  else if doubleEq untagged.bits 0 then indexOfZero type ctx
  else
    let targetDouble := (TaggedKey.double untagged).getRawData
    if withinInt32 platform untagged.bits then
      let targetInt32 := (TaggedKey.int (platform.castInt32 untagged.bits)).getRawData
      findRawDataDispatch type ctx fun cur => cur.getRawData = targetDouble ∨ cur.getRawData = targetInt32
    else findRawDataDispatch type ctx fun cur => cur.getRawData = targetDouble

def indexOfObjectAddress (type : IndexOfType) (ctx : IndexOfContext) (searchElement : TaggedKey) : Option Int :=
  findRawDataDispatch type ctx fun cur => cur.getRawData = searchElement.getRawData

def indexOfString (type : IndexOfType) (ctx : IndexOfContext) (address : Address) (string : EcmaString) : Option Int :=
  findRawDataDispatch type ctx fun cur =>
    if address.value = cur.getRawData then true
    else
      match cur with
      | .heapObject curAddress =>
          match ctx.heap.object curAddress with
          | .string curString => stringCompare curString string
          | _ => false
      | _ => false

def indexOfBigInt (type : IndexOfType) (ctx : IndexOfContext) (address : Address) (bigInt : BigInt) : Option Int :=
  findRawDataDispatch type ctx fun cur =>
    if cur.getRawData = address.value then true
    else
      match cur with
      | .heapObject curAddress =>
          match ctx.heap.object curAddress with
          | .bigInt curBigInt => bigIntsAreEqual curBigInt bigInt
          | _ => false
      | _ => false

def indexOfDispatch (platform : Platform) (type : IndexOfType) (ctx : IndexOfContext) : Option Int :=
  match ctx.searchElement with
  | .int untagged => indexOfInt32 type ctx untagged
  | .double untagged => indexOfDouble platform type ctx untagged
  | .heapObject address =>
      match ctx.heap.object address with
      | .string string => indexOfString type ctx address string
      | .bigInt bigInt => indexOfBigInt type ctx address bigInt
      | _ => indexOfObjectAddress type ctx ctx.searchElement
  | _ => indexOfObjectAddress type ctx ctx.searchElement

/-- `JSStableArray::IndexOf`; a read behind the elements has no result. -/
def indexOf (platform : Platform) (ctx : IndexOfContext) : Option Int := indexOfDispatch platform .IndexOf ctx

/-- `JSStableArray::LastIndexOf`. -/
def lastIndexOf (platform : Platform) (ctx : IndexOfContext) : Option Int := indexOfDispatch platform .LastIndexOf ctx

/-! ## The index that is found -/

/-- An element that is not a hole and is equal to the search value. -/
def IsMatch (ctx : IndexOfContext) (i : Nat) : Prop :=
  ∃ v, ctx.elements.convertedCur i = some v ∧ v ≠ .special .hole ∧ strictEqual ctx.heap v ctx.searchElement = true

/-- The least index of a match from the first index on, or the greatest one up to it, or -1. -/
def Finds (ctx : IndexOfContext) (r : Int) : IndexOfType → Prop
  | .IndexOf =>
      (∃ i : Nat, r = i ∧ ctx.fromIndex ≤ i ∧ i < ctx.length ∧ IsMatch ctx i ∧
        ∀ j, ctx.fromIndex ≤ j → j < i → ¬IsMatch ctx j) ∨
      (r = -1 ∧ ∀ j, ctx.fromIndex ≤ j → j < ctx.length → ¬IsMatch ctx j)
  | .LastIndexOf =>
      (∃ i : Nat, r = i ∧ i ≤ ctx.fromIndex ∧ IsMatch ctx i ∧ ∀ j, i < j → j ≤ ctx.fromIndex → ¬IsMatch ctx j) ∨
      (r = -1 ∧ ∀ j, j ≤ ctx.fromIndex → ¬IsMatch ctx j)

/-- All elements that are read are there. -/
def Inside (ctx : IndexOfContext) : IndexOfType → Prop
  | .IndexOf => ctx.length ≤ ctx.elements.length
  | .LastIndexOf => ctx.fromIndex < ctx.elements.length

section Search

variable {ctx : IndexOfContext} {predicate : TaggedKey → Bool} {type : IndexOfType}

theorem convertedCur_of_lt {elements : Elements} {cur : Nat} (inside : cur < elements.length) :
    ∃ v, elements.convertedCur cur = some v := by
  cases elements with
  | tagged data => exact ⟨_, List.getElem?_eq_getElem inside⟩
  | int data => exact ⟨_, by rw [Elements.convertedCur, List.getElem?_eq_getElem inside]; rfl⟩
  | number data => exact ⟨_, by rw [Elements.convertedCur, List.getElem?_eq_getElem inside]; rfl⟩

theorem getRawData_hole_iff (v : TaggedKey) : v.getRawData = Special.hole.value ↔ v = .special .hole :=
  ⟨fun same => getRawData_injective same, fun same => by rw [same]; rfl⟩

/-- The predicate decides the equality with the search value. -/
def Decides (ctx : IndexOfContext) (predicate : TaggedKey → Bool) : Prop :=
  ∀ v, v ≠ .special .hole → predicate v = strictEqual ctx.heap v ctx.searchElement

theorem isFound_spec (decides : Decides ctx predicate) (noInherited : ∀ i, ctx.inherited i = none) {cur : Nat}
    (inside : cur < ctx.elements.length) :
    ∃ found, isFound ctx predicate cur = some found ∧ (found = true ↔ IsMatch ctx cur) := by
  obtain ⟨v, here⟩ := convertedCur_of_lt inside
  unfold isFound
  rw [here, Option.bind_eq_bind, Option.bind_some]
  by_cases hole : v = .special .hole
  · refine ⟨false, ?_, iff_of_false Bool.false_ne_true ?_⟩
    · rw [if_neg (not_not_intro ((getRawData_hole_iff v).mpr hole)), elementIsStrictEqualTo, noInherited]
      rfl
    · rintro ⟨w, there, notHole, -⟩
      exact notHole ((Option.some.inj (there.symm.trans here)).trans hole)
  · refine ⟨predicate v, if_pos (mt (getRawData_hole_iff v).mp hole), ?_⟩
    rw [decides v hole]
    constructor
    · exact fun same => ⟨v, here, hole, same⟩
    · rintro ⟨w, there, -, same⟩
      rwa [← Option.some.inj (there.symm.trans here)]

theorem findRawDataFrom_spec (decides : Decides ctx predicate) (noInherited : ∀ i, ctx.inherited i = none) (count : Nat) :
    ∀ cur, cur + count ≤ ctx.elements.length → ∃ r, findRawDataFrom ctx predicate cur count = some r ∧
      ((∃ i : Nat, r = i ∧ cur ≤ i ∧ i < cur + count ∧ IsMatch ctx i ∧ ∀ j, cur ≤ j → j < i → ¬IsMatch ctx j) ∨
        (r = -1 ∧ ∀ j, cur ≤ j → j < cur + count → ¬IsMatch ctx j)) := by
  induction count with
  | zero => exact fun cur _ => ⟨-1, rfl, .inr ⟨rfl, fun j low high => by omega⟩⟩
  | succ count ih =>
    intro cur inside
    obtain ⟨found, read, matched⟩ := isFound_spec decides noInherited (show cur < ctx.elements.length by omega)
    unfold findRawDataFrom
    rw [read, Option.bind_eq_bind, Option.bind_some]
    by_cases here : IsMatch ctx cur
    · refine ⟨cur, if_pos (matched.mpr here), .inl ⟨cur, rfl, le_refl _, by omega, here, fun j low high => by omega⟩⟩
    · obtain ⟨r, rest, spec⟩ := ih (cur + 1) (by omega)
      refine ⟨r, (if_neg (mt matched.mp here)).trans rest, ?_⟩
      have skip {j : Nat} (low : cur ≤ j) (later : cur + 1 ≤ j → ¬IsMatch ctx j) : ¬IsMatch ctx j := by
        rcases Nat.eq_or_lt_of_le low with rfl | after
        · exact here
        · exact later after
      rcases spec with ⟨i, rfl, low, high, there, least⟩ | ⟨rfl, none⟩
      · exact .inl ⟨i, rfl, by omega, by omega, there, fun j low high => skip low fun after => least j after high⟩
      · exact .inr ⟨rfl, fun j low high => skip low fun after => none j after (by omega)⟩

theorem findLastRawDataFrom_spec (decides : Decides ctx predicate) (noInherited : ∀ i, ctx.inherited i = none)
    (bound : Nat) (inside : bound ≤ ctx.elements.length) : ∃ r, findLastRawDataFrom ctx predicate bound = some r ∧
      ((∃ i : Nat, r = i ∧ i < bound ∧ IsMatch ctx i ∧ ∀ j, i < j → j < bound → ¬IsMatch ctx j) ∨
        (r = -1 ∧ ∀ j, j < bound → ¬IsMatch ctx j)) := by
  induction bound with
  | zero => exact ⟨-1, rfl, .inr ⟨rfl, fun j high => by omega⟩⟩
  | succ cur ih =>
    obtain ⟨found, read, matched⟩ := isFound_spec decides noInherited (show cur < ctx.elements.length by omega)
    unfold findLastRawDataFrom
    rw [read, Option.bind_eq_bind, Option.bind_some]
    by_cases here : IsMatch ctx cur
    · exact ⟨cur, if_pos (matched.mpr here), .inl ⟨cur, rfl, by omega, here, fun j low high => by omega⟩⟩
    · obtain ⟨r, rest, spec⟩ := ih (by omega)
      refine ⟨r, (if_neg (mt matched.mp here)).trans rest, ?_⟩
      have skip {j : Nat} (high : j < cur + 1) (earlier : j < cur → ¬IsMatch ctx j) : ¬IsMatch ctx j := by
        rcases Nat.lt_or_eq_of_le (Nat.le_of_lt_succ high) with before | rfl
        · exact earlier before
        · exact here
      rcases spec with ⟨i, rfl, high, there, greatest⟩ | ⟨rfl, none⟩
      · exact .inl ⟨i, rfl, by omega, there, fun j low high => skip high fun before => greatest j low before⟩
      · exact .inr ⟨rfl, fun j high => skip high fun before => none j before⟩

theorem findRawDataDispatch_spec (decides : Decides ctx predicate) (noInherited : ∀ i, ctx.inherited i = none)
    (inside : Inside ctx type) : ∃ r, findRawDataDispatch type ctx predicate = some r ∧ Finds ctx r type := by
  cases type with
  | IndexOf =>
    rcases Nat.le_total ctx.fromIndex ctx.length with before | after
    · obtain ⟨r, run, spec⟩ := findRawDataFrom_spec decides noInherited (ctx.length - ctx.fromIndex) ctx.fromIndex
        (by rw [Nat.add_sub_cancel' before]; exact inside)
      rw [Nat.add_sub_cancel' before] at spec
      exact ⟨r, run, spec⟩
    · refine ⟨-1, ?_, .inr ⟨rfl, fun j low high => by omega⟩⟩
      rw [findRawDataDispatch, findRawData, Nat.sub_eq_zero_of_le after, findRawDataFrom]
  | LastIndexOf =>
    obtain ⟨r, run, spec⟩ := findLastRawDataFrom_spec decides noInherited (ctx.fromIndex + 1) inside
    refine ⟨r, run, ?_⟩
    simp only [Nat.lt_succ_iff] at spec
    exact spec

end Search

/-! ## Numbers -/

section Numbers

variable {heap : KeyHeap} {x y v : TaggedKey} {a b : UInt64} {m n : Int32} {d : Double}

theorem doubleEq_doubleOfInt : doubleEq (JSNumber.doubleOfInt m) (JSNumber.doubleOfInt n) = true ↔ m = n := by
  constructor
  · intro same
    have cast := castInt32_of_doubleEq ⟨fun _ => 0, fun _ => 0⟩ same
    rw [castInt32_doubleOfInt] at cast
    exact cast.symm
  · rintro rfl
    exact (doubleEq_iff _ _).mpr ⟨not_isNaN_doubleOfInt m, not_isNaN_doubleOfInt m, .inl rfl⟩

theorem strictEqual_numbers (numberX : x.extractNumber = some a) (numberY : y.extractNumber = some b) :
    strictEqual heap x y = doubleEq a b := by
  unfold strictEqual
  split
  · cases numberX
    cases numberY
    rw [Bool.eq_iff_iff, beq_iff_eq, doubleEq_doubleOfInt]
  · rw [numberX, numberY]

theorem strictEqual_other (other : x.extractNumber = none ∨ y.extractNumber = none) :
    strictEqual heap x y = if x = y then true else sameHeapObject stringCompare heap x y := by
  unfold strictEqual
  split
  · rcases other with none | none <;> cases none
  · have equal : (x.getRawData = y.getRawData) = (x = y) := propext ⟨fun same => getRawData_injective same, congrArg _⟩
    simp only [equal]
    split
    · next a b numberX numberY =>
      rcases other with none | none
      · cases numberX.symm.trans none
      · cases numberY.symm.trans none
    · rfl

/-- What is not a number is not equal to one. -/
theorem strictEqual_number_right (none : v.extractNumber = none) (number : y.extractNumber = some b) :
    strictEqual heap v y = false ∧ v ≠ y := by
  have different : v ≠ y := fun same => by
    rw [same, number] at none
    cases none
  rw [strictEqual_other (.inl none), if_neg different]
  refine ⟨?_, different⟩
  cases y with
  | int n => cases v <;> rfl
  | double d => cases v <;> rfl
  | special value => cases number
  | heapObject address => cases number

/-- The double of an `int`. -/
def doubleKey (n : Int32) : Double :=
  ⟨JSNumber.doubleOfInt n, Bool.eq_false_iff.mpr fun impure => by
    have nan := isNaN_of_isImpureNaN impure
    rw [not_isNaN_doubleOfInt] at nan
    cases nan⟩

theorem isZeroDouble_cases (zero : isZeroDouble b = true) : b = 0 ∨ b = 0x8000000000000000 := by
  rw [isZeroDouble_iff] at zero
  have small := b.toNat_lt
  rcases (by omega : b.toNat = 0 ∨ b.toNat = 2 ^ 63) with zero | negative
  · exact .inl (UInt64.toNat_inj.mp zero)
  · exact .inr (UInt64.toNat_inj.mp negative)

theorem ne_zero_of_double (nonzero : isZeroDouble b = false) (same : doubleEq (JSNumber.doubleOfInt m) b = true) :
    b = JSNumber.doubleOfInt m ∧ m ≠ 0 := by
  obtain ⟨-, -, same | ⟨-, zero⟩⟩ := (doubleEq_iff _ _).mp same
  · refine ⟨same.symm, ?_⟩
    rintro rfl
    rw [← same] at nonzero
    exact absurd nonzero (by decide)
  · rw [nonzero] at zero
    cases zero

theorem doubleToInt_doubleOfInt (platform : Platform) (notZero : m ≠ 0) :
    doubleToInt platform (JSNumber.doubleOfInt m) = m := by
  obtain ⟨exponent, -, -⟩ := fields_doubleOfInt notZero
  by_cases least : m = Int32.minValue
  · rw [least, doubleToInt, if_neg (by decide), if_pos (by decide)]
    decide
  · have fits : m.toInt.natAbs.log2 < 31 := by
      have low := m.le_toInt
      have high := m.toInt_lt
      have other : m.toInt ≠ -2 ^ 31 := fun same => least (Int32.toInt_inj.mp same)
      exact (Nat.log2_lt (natAbs_bounds notZero).1).mpr (by omega)
    rw [doubleToInt, if_pos (by omega), castInt32_doubleOfInt]

/-- A double is within the `int`s if it is equal to one, and is not the negative zero. -/
theorem withinInt32_iff (platform : Platform) (nonzero : isZeroDouble b = false) :
    withinInt32 platform b = true ↔ ∃ m, doubleEq (JSNumber.doubleOfInt m) b = true := by
  have other : b ≠ 0x8000000000000000 := by
    rintro rfl
    exact absurd nonzero (by decide)
  rw [withinInt32, if_neg other, doubleEq_comm]
  constructor
  · exact fun same => ⟨_, same⟩
  · rintro ⟨m, same⟩
    obtain ⟨rfl, notZero⟩ := ne_zero_of_double nonzero same
    rwa [doubleToInt_doubleOfInt platform notZero]

end Numbers

/-! ## The predicates decide -/

section Predicates

variable {ctx : IndexOfContext} {type : IndexOfType}

theorem isExactlyZero_iff (v : TaggedKey) : isExactlyZero v = true ↔
    v = .int 0 ∨ ∃ d : Double, v = .double d ∧ isZeroDouble d.bits = true := by
  have positive : valuePositiveZero = (TaggedKey.double ⟨0, by decide⟩).getRawData := rfl
  have negative : valueNegativeZero = (TaggedKey.double ⟨0x8000000000000000, by decide⟩).getRawData := rfl
  have zero : valueZero = (TaggedKey.int 0).getRawData := by decide
  rw [isExactlyZero, decide_eq_true_eq, positive, negative, zero, getRawData_injective.eq_iff,
    getRawData_injective.eq_iff, getRawData_injective.eq_iff]
  constructor
  · rintro (rfl | rfl | rfl)
    · exact .inl rfl
    · exact .inr ⟨_, rfl, by decide⟩
    · exact .inr ⟨_, rfl, by decide⟩
  · rintro (rfl | ⟨d, rfl, zero⟩)
    · exact .inl rfl
    · rcases isZeroDouble_cases zero with bits | bits
      · exact .inr (.inl (congrArg _ (Double.ext bits)))
      · exact .inr (.inr (congrArg _ (Double.ext bits)))

theorem doubleEq_zero_iff {a b : UInt64} (zero : isZeroDouble b = true) : doubleEq a b = true ↔ isZeroDouble a = true := by
  have number {bits : UInt64} (zero : isZeroDouble bits = true) : isNaN bits = false := by
    rcases isZeroDouble_cases zero with rfl | rfl <;> decide
  rw [doubleEq_iff]
  constructor
  · rintro ⟨-, -, rfl | both⟩
    · exact zero
    · exact both.1
  · exact fun zeroA => ⟨number zeroA, number zero, .inr ⟨zeroA, zero⟩⟩

theorem decides_zero {b : UInt64} (number : ctx.searchElement.extractNumber = some b) (zero : isZeroDouble b = true) :
    Decides ctx isExactlyZero := by
  intro v _
  rw [Bool.eq_iff_iff, isExactlyZero_iff]
  cases v with
  | int m =>
    rw [strictEqual_numbers rfl number, doubleEq_zero_iff zero]
    simp only [TaggedKey.int.injEq, reduceCtorEq, false_and, exists_const, or_false]
    constructor
    · rintro (rfl | ⟨_, none⟩)
      · decide
      · exact none.elim
    · intro zero
      refine .inl ?_
      rw [← castInt32_doubleOfInt ⟨fun _ => 0, fun _ => 0⟩ m, castInt32_of_isZero _ zero]
  | double d =>
    rw [strictEqual_numbers rfl number, doubleEq_zero_iff zero]
    simp
  | special value =>
    rw [(strictEqual_number_right rfl number).1]
    simp
  | heapObject address =>
    rw [(strictEqual_number_right rfl number).1]
    simp

theorem decides_int32 {n : Int32} (search : ctx.searchElement = .int n) (notZero : n ≠ 0) :
    Decides ctx fun cur => cur.getRawData = (TaggedKey.int n).getRawData ∨
      cur.getRawData = JSNumber.doubleOfInt n + doubleEncodeOffset := by
  intro v _
  have double : JSNumber.doubleOfInt n + doubleEncodeOffset = (TaggedKey.double (doubleKey n)).getRawData := rfl
  rw [search, Bool.eq_iff_iff, decide_eq_true_eq, double, getRawData_injective.eq_iff, getRawData_injective.eq_iff]
  have nonzero : isZeroDouble (JSNumber.doubleOfInt n) = false := by
    by_contra zero
    rw [Bool.not_eq_false] at zero
    exact notZero (doubleEq_doubleOfInt.mp ((doubleEq_zero_iff (b := JSNumber.doubleOfInt 0) (by decide)).mpr zero))
  cases v with
  | int m =>
    rw [strictEqual_numbers rfl rfl, doubleEq_doubleOfInt]
    simp
  | double d =>
    rw [strictEqual_numbers rfl rfl, doubleEq_iff]
    constructor
    · rintro (same | same)
      · cases same
      · cases same
        exact ⟨not_isNaN_doubleOfInt n, not_isNaN_doubleOfInt n, .inl rfl⟩
    · rintro ⟨-, -, same | ⟨-, zero⟩⟩
      · exact .inr (congrArg _ (Double.ext same))
      · rw [nonzero] at zero
        cases zero
  | special value =>
    rw [(strictEqual_number_right rfl rfl).1]
    simp
  | heapObject address =>
    rw [(strictEqual_number_right rfl rfl).1]
    simp

theorem decides_double {d : Double} (search : ctx.searchElement = .double d) (number : isNaN d.bits = false)
    (nonzero : isZeroDouble d.bits = false) (platform : Platform) :
    Decides ctx fun cur => cur.getRawData = (TaggedKey.double d).getRawData ∨ (withinInt32 platform d.bits ∧
      cur.getRawData = (TaggedKey.int (platform.castInt32 d.bits)).getRawData) := by
  intro v _
  rw [search, Bool.eq_iff_iff, decide_eq_true_eq, getRawData_injective.eq_iff, getRawData_injective.eq_iff]
  cases v with
  | int m =>
    rw [strictEqual_numbers rfl rfl, withinInt32_iff platform nonzero]
    constructor
    · rintro (same | ⟨⟨k, equal⟩, same⟩)
      · cases same
      · cases same
        rwa [castInt32_of_doubleEq platform equal]
    · intro same
      exact .inr ⟨⟨m, same⟩, by rw [castInt32_of_doubleEq platform same]⟩
  | double e =>
    rw [strictEqual_numbers rfl rfl, doubleEq_iff]
    constructor
    · rintro (same | ⟨-, same⟩)
      · cases same
        exact ⟨number, number, .inl rfl⟩
      · cases same
    · rintro ⟨-, -, same | ⟨-, zero⟩⟩
      · exact .inl (congrArg _ (Double.ext same))
      · rw [nonzero] at zero
        cases zero
  | special value =>
    rw [(strictEqual_number_right rfl rfl).1]
    simp
  | heapObject address =>
    rw [(strictEqual_number_right rfl rfl).1]
    simp

/-- Objects are compared by their addresses first, then by their contents. -/
theorem decides_object {address : Address} (search : ctx.searchElement = .heapObject address)
    {predicate : TaggedKey → Bool} (compares : ∀ v, predicate v =
      if v.getRawData = address.value then true else sameHeapObject stringCompare ctx.heap v (.heapObject address)) :
    Decides ctx predicate := by
  intro v _
  rw [compares, search, strictEqual_other (.inr rfl)]
  have equal : (v.getRawData = address.value) = (v = .heapObject address) :=
    propext ⟨fun same => getRawData_injective same, fun same => by rw [same]; rfl⟩
  simp only [equal]

end Predicates

theorem indexOfZero_spec {ctx : IndexOfContext} {type : IndexOfType} {b : UInt64}
    (number : ctx.searchElement.extractNumber = some b) (zero : isZeroDouble b = true)
    (noInherited : ∀ i, ctx.inherited i = none) (inside : Inside ctx type) :
    ∃ r, indexOfZero type ctx = some r ∧ Finds ctx r type :=
  findRawDataDispatch_spec (decides_zero number zero) noInherited inside

theorem indexOfDouble_spec (platform : Platform) {ctx : IndexOfContext} {type : IndexOfType} {d : Double}
    (search : ctx.searchElement = .double d) (noInherited : ∀ i, ctx.inherited i = none) (inside : Inside ctx type) :
    ∃ r, indexOfDouble platform type ctx d = some r ∧ Finds ctx r type := by
  have extract : ctx.searchElement.extractNumber = some d.bits := by rw [search]; rfl
  rw [indexOfDouble]
  by_cases nan : isNaN d.bits = true
  · -- nothing is equal to `NaN`
    have unequal (i : Nat) : ¬IsMatch ctx i := by
      rintro ⟨v, -, -, same⟩
      cases number : v.extractNumber with
      | none =>
        rw [(strictEqual_number_right number extract).1] at same
        cases same
      | some a =>
        rw [strictEqual_numbers number extract, doubleEq_iff, nan] at same
        cases same.2.1
    refine ⟨-1, if_pos nan, ?_⟩
    cases type with
    | IndexOf => exact .inr ⟨rfl, fun j _ _ => unequal j⟩
    | LastIndexOf => exact .inr ⟨rfl, fun j _ => unequal j⟩
  · rw [if_neg nan]
    by_cases zero : doubleEq d.bits 0 = true
    · rw [if_pos zero]
      exact indexOfZero_spec extract ((doubleEq_zero_iff (by decide)).mp zero) noInherited inside
    · rw [if_neg zero]
      have nonzero : isZeroDouble d.bits = false :=
        Bool.not_eq_true _ ▸ mt (doubleEq_zero_iff (b := 0) (by decide)).mpr zero
      have decides := decides_double search (Bool.not_eq_true _ ▸ nan) nonzero platform
      dsimp only
      split
      · next within =>
        simp only [within, true_and] at decides
        exact findRawDataDispatch_spec decides noInherited inside
      · next outside =>
        simp only [outside, Bool.false_eq_true, false_and, or_false] at decides
        exact findRawDataDispatch_spec decides noInherited inside

theorem indexOfDispatch_spec (platform : Platform) {ctx : IndexOfContext} {type : IndexOfType}
    (noInherited : ∀ i, ctx.inherited i = none) (inside : Inside ctx type) :
    ∃ r, indexOfDispatch platform type ctx = some r ∧ Finds ctx r type := by
  have scan {predicate : TaggedKey → Bool} (decides : Decides ctx predicate) :=
    findRawDataDispatch_spec decides noInherited inside
  unfold indexOfDispatch
  split
  · next n search =>
    rw [indexOfInt32]
    by_cases zero : n = 0
    · rw [if_pos zero]
      exact indexOfZero_spec (b := JSNumber.doubleOfInt n) (by rw [search]; rfl) (by rw [zero]; decide) noInherited inside
    · rw [if_neg zero]
      exact scan (decides_int32 search zero)
  · next d search => exact indexOfDouble_spec platform search noInherited inside
  · next address search =>
    split
    · next string here =>
      refine scan (decides_object search fun v => ?_)
      rw [if_congr (eq_comm (a := address.value)) rfl rfl]
      congr 1
      cases v with
      | heapObject curAddress =>
        rw [sameHeapObject, here]
        cases other : ctx.heap.object curAddress <;> simp only [other] <;> rfl
      | _ => rfl
    · next bigInt here =>
      refine scan (decides_object search fun v => ?_)
      congr 1
      cases v with
      | heapObject curAddress =>
        rw [sameHeapObject, here]
        cases other : ctx.heap.object curAddress <;> simp only [other] <;> rfl
      | _ => rfl
    · next notString notBigInt =>
      refine scan (decides_object search fun v => ?_)
      have different : sameHeapObject stringCompare ctx.heap v (.heapObject address) = false := by
        cases v with
        | heapObject curAddress =>
          rw [sameHeapObject]
          cases here : ctx.heap.object address with
          | string string => exact absurd here (notString string)
          | bigInt bigInt => exact absurd here (notBigInt bigInt)
          | _ => cases ctx.heap.object curAddress <;> rfl
        | _ => rfl
      rw [different, search, Bool.if_true_left, Bool.or_false]
      rfl
  · next notInt notDouble notHeap =>
    refine scan fun v _ => ?_
    cases search : ctx.searchElement with
    | special value =>
      have different : sameHeapObject stringCompare ctx.heap v (.special value) = false := by cases v <;> rfl
      rw [strictEqual_other (.inr rfl), different, Bool.if_true_left, Bool.or_false]
      simp only [getRawData_injective.eq_iff]
    | int n => exact absurd search (notInt n)
    | double d => exact absurd search (notDouble d)
    | heapObject address => exact absurd search (notHeap address)

/-- `IndexOf` gives the least index from the first one on, below the length, and `LastIndexOf` the greatest one up to
    the first, of an element that is not a hole and is equal to the search value, and -1 where there is none. -/
theorem indexOf_spec (platform : Platform) (ctx : IndexOfContext) (noInherited : ∀ i, ctx.inherited i = none) :
    (ctx.length ≤ ctx.elements.length → ∃ r, indexOf platform ctx = some r ∧ Finds ctx r .IndexOf) ∧
      (ctx.fromIndex < ctx.elements.length → ∃ r, lastIndexOf platform ctx = some r ∧ Finds ctx r .LastIndexOf) :=
  ⟨fun inside => indexOfDispatch_spec platform noInherited inside,
    fun inside => indexOfDispatch_spec platform noInherited inside⟩

/-- Two fives, an `int` and a double, and a hole between them. -/
def fives : IndexOfContext where
  heap := ⟨fun _ => .other, 1⟩
  elements := .tagged [.special .null, .double ⟨0x4014000000000000, by decide⟩, .special .hole, .int 5]
  inherited := fun _ => none
  searchElement := .int 5
  fromIndex := 2
  length := 4

theorem indexOf_fives : (∃ r, indexOf ⟨fun _ => 0, fun _ => 0⟩ fives = some r ∧ Finds fives r .IndexOf) ∧
    ∃ r, lastIndexOf ⟨fun _ => 0, fun _ => 0⟩ fives = some r ∧ Finds fives r .LastIndexOf :=
  have found := indexOf_spec ⟨fun _ => 0, fun _ => 0⟩ fives fun _ => rfl
  ⟨found.1 (by decide), found.2 (by decide)⟩

example : (indexOf ⟨fun _ => 0, fun _ => 0⟩ fives, lastIndexOf ⟨fun _ => 0, fun _ => 0⟩ fives) = (some 3, some 1) := by
  decide

end JSStableArray

end ArkRuntime
