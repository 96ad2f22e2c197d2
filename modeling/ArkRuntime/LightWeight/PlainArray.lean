import ArkRuntime.LightWeight.Slots
import ArkRuntime.ContainerError
import ArkRuntime.Misc.BinarySearch
import ArkRuntime.Misc.Int32
import ArkRuntime.Misc.Run

/-!
# `PlainArray`

`JSAPIPlainArray` (`ecmascript/js_api/js_api_plain_array.cpp`): the keys, ascending, and the values in two
arrays. `Add` moves the slots behind the new one before it looks at the capacity, so it needs a free
slot to begin with. The constructor and every operation but `Clone` leave one. The sum of index and batch
size in `RemoveRangeFrom` is undefined where it does not fit into an `int32_t`.
-/

namespace ArkRuntime

variable {α : Type}

structure JSAPIPlainArray (α : Type) where
  keys : Slots α
  values : Slots α
  length : Nat

namespace JSAPIPlainArray

/-- `DEFAULT_CAPACITY_LENGTH`. -/
def defaultCapacityLength : Nat := 8

/-- `ContainersPlainArray::PlainArrayConstructor`. -/
def construct : JSAPIPlainArray α :=
  ⟨.newTaggedArray defaultCapacityLength, .newTaggedArray defaultCapacityLength, 0⟩

/-- `AdjustPrimitiveArray`. -/
def adjustPrimitiveArray (obj : JSAPIPlainArray α) (srcArray : Slots α) (fromIndex toIndex : Nat) :
    Option (Slots α) := do
  let size := obj.length
  let srcArray ← copyDown (size - fromIndex) fromIndex toIndex srcArray
  fill .hole (fromIndex - toIndex) (toIndex + (size - fromIndex)) srcArray

/-- `AdjustArray`. The two ways in which the source moves slots down differ in the write barrier. -/
def adjustArray (obj : JSAPIPlainArray α) (srcArray : Slots α) (fromIndex toIndex : Nat)
    (direction : Bool) : Option (Slots α) :=
  if direction then shiftUp (toIndex - fromIndex) (obj.length - 1) srcArray
  else obj.adjustPrimitiveArray srcArray fromIndex toIndex

/-- `AdjustForward`. -/
def adjustForward (obj : JSAPIPlainArray α) (index forwardSize : Nat) : Option (JSAPIPlainArray α) := do
  let keys ← obj.adjustPrimitiveArray obj.keys (index + forwardSize) index
  let values ← obj.adjustArray obj.values (index + forwardSize) index false
  return ⟨keys, values, obj.length - forwardSize⟩

/-- The shift in `Add`, when the new slot is not the last one. -/
def makeRoom (obj : JSAPIPlainArray α) (srcArray : Slots α) (index : Nat) : Option (Slots α) :=
  if index < obj.length then obj.adjustArray srcArray index obj.length true else some srcArray

/-- The expansion in `Add`. -/
def expand (keyArray valueArray : Slots α) (size : Nat) : Option (Slots α × Slots α) :=
  let capacity := valueArray.length
  if capacity ≤ size + 1 then do
    let newCapacity := capacity <<< 1
    let keyArray ← keyArray.copyArray capacity newCapacity
    let valueArray ← valueArray.copyArray capacity newCapacity
    return (keyArray, valueArray)
  else some (keyArray, valueArray)

section
-- what `static_cast<int32_t>(GetNumber())` makes of a key
variable (number : JSTaggedValue α → Int)

/-- `BinarySearch` from the first slot on. -/
def binarySearchKeys (obj : JSAPIPlainArray α) (key : Int) : Option Int :=
  binarySearch (fun i => obj.keys[i]?.map number) key obj.length

/-- `Add`. -/
def add (obj : JSAPIPlainArray α) (key value : JSTaggedValue α) : Option (JSAPIPlainArray α) := do
  let size := obj.length
  let index ← obj.binarySearchKeys number (number key)
  if 0 ≤ index then
    let keyArray ← store obj.keys index.toNat key
    let valueArray ← store obj.values index.toNat value
    return { obj with keys := keyArray, values := valueArray }
  else
    -- `index ^= 0xFFFFFFFF`
    let index := (-index - 1).toNat
    let keyArray ← obj.makeRoom obj.keys index
    let valueArray ← obj.makeRoom obj.values index
    let (keyArray, valueArray) ← expand keyArray valueArray size
    let keyArray ← store keyArray index key
    let valueArray ← store valueArray index value
    return ⟨keyArray, valueArray, size + 1⟩

/-- `Remove`. -/
def remove (obj : JSAPIPlainArray α) (key : JSTaggedValue α) :
    Option (JSAPIPlainArray α × JSTaggedValue α) := do
  let index ← obj.binarySearchKeys number (number key)
  if index < 0 ∨ (obj.length : Int) ≤ index then return (obj, .undefined)
  else
    let value ← obj.values[index.toNat]?
    let obj ← obj.adjustForward index.toNat 1
    return (obj, value)

end

/-- `RemoveAt`. -/
def removeAt (obj : JSAPIPlainArray α) (seat : Int) : Option (JSAPIPlainArray α × JSTaggedValue α) :=
  if seat < 0 ∨ (obj.length : Int) ≤ seat then some (obj, .undefined)
  else do
    let value ← obj.values[seat.toNat]?
    let obj ← obj.adjustForward seat.toNat 1
    return (obj, value)

/-- The value of an `int32_t` expression. -/
def int32 (i : Int) : Int := i.bmod (2 ^ 32)

/-- The second range error of `RemoveRangeFrom`. -/
def batchSizeError (batchSize : Int) : BusinessError where
  flag := .rangeError
  message := "The value of \"size\" is out of range. It must be > 0. Received value is: " ++
    toString batchSize

/-- `RemoveRangeFrom`: the number of elements that were removed, or the error that is thrown. `none` where
    the sum overflows. -/
def removeRangeFrom (obj : JSAPIPlainArray α) (index batchSize : Int32) :
    Option (JSAPIPlainArray α × Except BusinessError Int) :=
  let size := int32 obj.length
  if index.toInt < 0 ∨ size ≤ index.toInt then
    some (obj, .error (.outOfRange "index" (int32 (size - 1)) index.toInt))
  else if batchSize.toInt < 1 then some (obj, .error (batchSizeError batchSize.toInt))
  else do
    let sum ← checked32 (index.toInt + batchSize.toInt)
    let safeSize := if size - sum < 0 then size - index.toInt else batchSize.toInt
    let obj ← obj.adjustForward index.toInt.toNat safeSize.toNat
    return (obj, .ok safeSize)

/-- `Clear`. -/
def clear (obj : JSAPIPlainArray α) : Option (JSAPIPlainArray α) := do
  let keyArray ← fill .hole obj.length 0 obj.keys
  let valueArray ← fill .hole obj.length 0 obj.values
  return ⟨keyArray, valueArray, 0⟩

/-- `Clone`: the new array. -/
def clone (obj : JSAPIPlainArray α) : Option (JSAPIPlainArray α) := do
  let dstKeyArray ← obj.keys.newAndCopyTaggedArray obj.length obj.length
  let dstValueArray ← obj.values.newAndCopyTaggedArray obj.length obj.length
  return ⟨dstKeyArray, dstValueArray, obj.length⟩

/-! ## A free slot -/

structure Roomy (obj : JSAPIPlainArray α) : Prop where
  values : obj.length < obj.values.length
  keys : obj.keys.length = obj.values.length

variable {obj : JSAPIPlainArray α}

theorem roomy_construct : Roomy (construct : JSAPIPlainArray α) := ⟨show 0 < 8 by decide, rfl⟩

theorem Roomy.keys_lt (roomy : Roomy obj) : obj.length < obj.keys.length := by
  rw [roomy.keys]
  exact roomy.values

theorem binarySearchKeys_bounds (number : JSTaggedValue α → Int) (roomy : Roomy obj) (key : Int) :
    ∃ r : Int, obj.binarySearchKeys number key = some r ∧ -((obj.length : Int) + 1) ≤ r ∧
      r < obj.length := by
  have room := roomy.keys_lt
  have reads : ∀ i < obj.length, obj.keys[i]?.map number =
      some (number (obj.keys.getD i .hole)) := by
    intro i below
    rw [List.getD_eq_getElem?_getD, List.getElem?_eq_getElem (by omega)]
    rfl
  obtain ⟨r, run, ⟨i, below, rfl, -⟩ | ⟨p, le, rfl, -⟩⟩ := binarySearch_spec obj.length key reads
  · exact ⟨_, run, by omega, by omega⟩
  · exact ⟨_, run, by omega, by omega⟩

theorem makeRoom_length {a : Slots α} {p : Nat} (place : p ≤ obj.length)
    (inside : obj.length < a.length) : ∃ a', obj.makeRoom a p = some a' ∧ a'.length = a.length := by
  obtain ⟨a', run, length, -⟩ := Slots.shiftUp_insert place inside
  rcases Nat.lt_or_eq_of_le place with less | rfl
  · exact ⟨a', by rw [makeRoom, if_pos less]; exact run, length⟩
  · exact ⟨a, by rw [makeRoom, if_neg (Nat.lt_irrefl _)], rfl⟩

theorem expand_length {k v : Slots α} {n : Nat} (room : n < v.length) (same : k.length = v.length) :
    ∃ k' v', expand k v n = some (k', v') ∧ n + 1 < v'.length ∧ k'.length = v'.length := by
  by_cases full : v.length ≤ n + 1
  · have double : v.length <<< 1 = 2 * v.length := by rw [Nat.shiftLeft_eq]; omega
    obtain ⟨k', copied, length, -⟩ := Slots.copyArray_longer (a := k)
      (show v.length < 2 * v.length by omega) (by omega)
    obtain ⟨v', copied', length', -⟩ := Slots.copyArray_longer (a := v)
      (show v.length < 2 * v.length by omega) (by omega)
    refine ⟨k', v', ?_, by omega, by omega⟩
    simp only [expand, full, if_true, double]
    rw [copied]
    simp only [Option.bind_eq_bind, Option.bind_some]
    rw [copied']
    rfl
  · exact ⟨k, v, if_neg full, by omega, same⟩

/-- `Add` stays inside the arrays and leaves a free slot. -/
theorem add_roomy (number : JSTaggedValue α → Int) (roomy : Roomy obj) (key value : JSTaggedValue α) :
    ∃ obj', obj.add number key value = some obj' ∧ Roomy obj' := by
  have room := roomy.values
  have same := roomy.keys
  obtain ⟨r, search, low, high⟩ := binarySearchKeys_bounds number roomy (number key)
  by_cases present : 0 ≤ r
  · refine ⟨⟨obj.keys.set r.toNat key, obj.values.set r.toNat value, obj.length⟩, ?_, ?_, ?_⟩
    · simp only [add, search, Option.bind_eq_bind, Option.bind_some, present, if_true]
      rw [store_of_lt (by omega), Option.bind_some, store_of_lt (by omega)]
      rfl
    · simp only [List.length_set]
      exact room
    · simp only [List.length_set]
      exact same
  · have place : (-r - 1).toNat ≤ obj.length := by omega
    obtain ⟨k, moved, kLength⟩ := makeRoom_length (a := obj.keys) place (by omega)
    obtain ⟨v, moved', vLength⟩ := makeRoom_length (a := obj.values) place room
    obtain ⟨k', v', expanded, free, same'⟩ := expand_length (k := k) (v := v) (n := obj.length)
      (by omega) (by omega)
    refine ⟨⟨k'.set (-r - 1).toNat key, v'.set (-r - 1).toNat value, obj.length + 1⟩, ?_, ?_, ?_⟩
    · simp only [add, search, Option.bind_eq_bind, Option.bind_some, present, if_false, moved, moved',
        expanded]
      rw [store_of_lt (by omega), Option.bind_some, store_of_lt (by omega)]
      rfl
    · simp only [List.length_set]
      exact free
    · simp only [List.length_set]
      exact same'

theorem adjustPrimitiveArray_length {a : Slots α} {i n : Nat} (range : i + n ≤ obj.length)
    (inside : obj.length ≤ a.length) :
    ∃ a', obj.adjustPrimitiveArray a (i + n) i = some a' ∧ a'.length = a.length := by
  obtain ⟨b, copied, length, -⟩ := copyDown_spec (obj.length - (i + n)) (i + n) i a (by omega) (by omega)
  obtain ⟨a', filled, length', -⟩ := fill_spec .hole (i + n - i) (i + (obj.length - (i + n))) b (by omega)
  refine ⟨a', ?_, by omega⟩
  simp only [adjustPrimitiveArray, copied, Option.bind_eq_bind, Option.bind_some]
  exact filled

theorem adjustForward_roomy (roomy : Roomy obj) {i n : Nat} (range : i + n ≤ obj.length) :
    ∃ obj', obj.adjustForward i n = some obj' ∧ Roomy obj' := by
  have room := roomy.values
  have same := roomy.keys
  obtain ⟨k, moved, kLength⟩ := adjustPrimitiveArray_length (a := obj.keys) range (by omega)
  obtain ⟨v, moved', vLength⟩ := adjustPrimitiveArray_length (a := obj.values) range (by omega)
  refine ⟨⟨k, v, obj.length - n⟩, ?_, ?_, ?_⟩
  · simp only [adjustForward, adjustArray, moved, moved', Option.bind_eq_bind, Option.bind_some,
      Bool.false_eq_true, if_false]
    rfl
  · simp only
    omega
  · simp only
    omega

theorem remove_roomy (number : JSTaggedValue α → Int) (roomy : Roomy obj) (key : JSTaggedValue α) :
    ∃ obj' x, obj.remove number key = some (obj', x) ∧ Roomy obj' := by
  have room := roomy.values
  obtain ⟨r, search, -, high⟩ := binarySearchKeys_bounds number roomy (number key)
  by_cases absent : r < 0 ∨ (obj.length : Int) ≤ r
  · refine ⟨obj, .undefined, ?_, roomy⟩
    simp only [remove, search, Option.bind_eq_bind, Option.bind_some, absent, if_true]
    rfl
  · obtain ⟨obj', moved, roomy'⟩ := adjustForward_roomy roomy (show r.toNat + 1 ≤ obj.length by omega)
    have read : obj.values[r.toNat]? = some (obj.values.get ⟨r.toNat, by omega⟩) :=
      List.getElem?_eq_getElem (by omega)
    refine ⟨obj', obj.values.get ⟨r.toNat, by omega⟩, ?_, roomy'⟩
    simp only [remove, search, Option.bind_eq_bind, Option.bind_some, absent, if_false, read, moved]
    rfl

theorem removeAt_roomy (roomy : Roomy obj) (seat : Int) :
    ∃ obj' x, obj.removeAt seat = some (obj', x) ∧ Roomy obj' := by
  have room := roomy.values
  by_cases outside : seat < 0 ∨ (obj.length : Int) ≤ seat
  · exact ⟨obj, .undefined, if_pos outside, roomy⟩
  · obtain ⟨obj', moved, roomy'⟩ :=
      adjustForward_roomy roomy (show seat.toNat + 1 ≤ obj.length by omega)
    have read : obj.values[seat.toNat]? = some (obj.values.get ⟨seat.toNat, by omega⟩) :=
      List.getElem?_eq_getElem (by omega)
    refine ⟨obj', obj.values.get ⟨seat.toNat, by omega⟩, ?_, roomy'⟩
    simp only [removeAt, outside, if_false, read, moved, Option.bind_eq_bind, Option.bind_some]
    rfl

theorem int32_le (n : Nat) : int32 n ≤ n := by
  rw [int32, Int.bmod_def]
  split_ifs <;> omega

/-- `RemoveRangeFrom` throws, or the sum of index and batch size is an `int32_t`. -/
def RangeDefined (obj : JSAPIPlainArray α) (index batchSize : Int32) : Prop :=
  index.toInt < 0 ∨ int32 obj.length ≤ index.toInt ∨ batchSize.toInt < 1 ∨
    index.toInt + batchSize.toInt < 2 ^ 31

instance (obj : JSAPIPlainArray α) (index batchSize : Int32) : Decidable (obj.RangeDefined index batchSize) :=
  inferInstanceAs (Decidable (_ ∨ _ ∨ _ ∨ _))

section RemoveRangeFrom

variable {index batchSize : Int32}

theorem RangeDefined.fits (defined : obj.RangeDefined index batchSize)
    (inside : ¬(index.toInt < 0 ∨ int32 obj.length ≤ index.toInt)) (batch : ¬batchSize.toInt < 1) :
    checked32 (index.toInt + batchSize.toInt) = some (index.toInt + batchSize.toInt) := by
  apply checked32_of_fits
  unfold RangeDefined at defined
  unfold FitsInt32 int32Min int32Max
  omega

/-- A sum that does not fit leaves no result. -/
theorem removeRangeFrom_overflow (overflows : ¬obj.RangeDefined index batchSize) :
    obj.removeRangeFrom index batchSize = none := by
  unfold RangeDefined at overflows
  have undefined : checked32 (index.toInt + batchSize.toInt) = none := by
    apply if_neg
    unfold FitsInt32 int32Min int32Max
    omega
  rw [removeRangeFrom]
  simp only
  rw [if_neg (by omega), if_neg (by omega), undefined]
  rfl

theorem removeRangeFrom_roomy (roomy : Roomy obj) (defined : obj.RangeDefined index batchSize) :
    ∃ obj' r, obj.removeRangeFrom index batchSize = some (obj', r) ∧ Roomy obj' := by
  have le := int32_le obj.length
  rw [removeRangeFrom]
  simp only
  by_cases outside : index.toInt < 0 ∨ int32 obj.length ≤ index.toInt
  · rw [if_pos outside]
    exact ⟨obj, _, rfl, roomy⟩
  by_cases batch : batchSize.toInt < 1
  · rw [if_neg outside, if_pos batch]
    exact ⟨obj, _, rfl, roomy⟩
  rw [if_neg outside, if_neg batch, defined.fits outside batch, Option.bind_eq_bind, Option.bind_some]
  split_ifs with less
  · obtain ⟨obj', moved, roomy'⟩ := adjustForward_roomy roomy
      (show index.toInt.toNat + (int32 obj.length - index.toInt).toNat ≤ obj.length by omega)
    exact ⟨obj', _, by rw [moved]; rfl, roomy'⟩
  · obtain ⟨obj', moved, roomy'⟩ := adjustForward_roomy roomy
      (show index.toInt.toNat + batchSize.toInt.toNat ≤ obj.length by omega)
    exact ⟨obj', _, by rw [moved]; rfl, roomy'⟩

end RemoveRangeFrom

theorem clear_roomy (roomy : Roomy obj) : ∃ obj', obj.clear = some obj' ∧ Roomy obj' := by
  have room := roomy.values
  have same := roomy.keys
  obtain ⟨k, filled, kLength, -⟩ := fill_spec .hole obj.length 0 obj.keys (by omega)
  obtain ⟨v, filled', vLength, -⟩ := fill_spec .hole obj.length 0 obj.values (by omega)
  refine ⟨⟨k, v, 0⟩, ?_, ?_, ?_⟩
  · simp only [clear, filled, filled', Option.bind_eq_bind, Option.bind_some]
    rfl
  · simp only
    omega
  · simp only
    omega

/-! ## Runs -/

inductive Op (α : Type) where
  | add (key value : JSTaggedValue α)
  | remove (key : JSTaggedValue α)
  | removeAt (seat : Int)
  | removeRangeFrom (index batchSize : Int32)
  | clear
  | clone

/-- One operation; after `Clone` the run goes on with the new array. `none` where an operation leaves
    an array. -/
def step (number : JSTaggedValue α → Int) (obj : JSAPIPlainArray α) :
    Op α → Option (JSAPIPlainArray α)
  | .add key value => obj.add number key value
  | .remove key => (obj.remove number key).map (·.1)
  | .removeAt seat => (obj.removeAt seat).map (·.1)
  | .removeRangeFrom index batchSize => (obj.removeRangeFrom index batchSize).map (·.1)
  | .clear => obj.clear
  | .clone => obj.clone

/-- Not a `Clone`, and not a `RemoveRangeFrom` with a sum that overflows. -/
def Meets (obj : JSAPIPlainArray α) : Op α → Prop
  | .clone => False
  | .removeRangeFrom index batchSize => obj.RangeDefined index batchSize
  | _ => True

instance (obj : JSAPIPlainArray α) : ∀ o : Op α, Decidable (obj.Meets o)
  | .clone => isFalse id
  | .removeRangeFrom index batchSize => inferInstanceAs (Decidable (obj.RangeDefined index batchSize))
  | .add _ _ | .remove _ | .removeAt _ | .clear => isTrue trivial

theorem roomy_step (number : JSTaggedValue α → Int) (obj : JSAPIPlainArray α) (o : Op α)
    (roomy : Roomy obj) (meets : obj.Meets o) : ∃ obj', obj.step number o = some obj' ∧ Roomy obj' := by
  cases o with
  | add key value => exact add_roomy number roomy key value
  | remove key =>
    obtain ⟨obj', x, run, roomy'⟩ := remove_roomy number roomy key
    exact ⟨obj', by rw [step, run]; rfl, roomy'⟩
  | removeAt seat =>
    obtain ⟨obj', x, run, roomy'⟩ := removeAt_roomy roomy seat
    exact ⟨obj', by rw [step, run]; rfl, roomy'⟩
  | removeRangeFrom index batchSize =>
    obtain ⟨obj', r, run, roomy'⟩ := removeRangeFrom_roomy roomy meets
    exact ⟨obj', by rw [step, run]; rfl, roomy'⟩
  | clear => exact clear_roomy roomy
  | clone => exact meets.elim

/-- Both arrays have a free slot, so that `Add` stays inside of them. -/
structure Safe (number : JSTaggedValue α → Int) (obj : JSAPIPlainArray α) : Prop where
  keys : obj.length < obj.keys.length
  values : obj.length < obj.values.length
  add : ∀ key value, ∃ obj', obj.add number key value = some obj'

theorem plainArray_safe_of_run (number : JSTaggedValue α → Int) (operations : List (Op α))
    (allowed : Allowed (step number) Meets construct operations) :
    ∃ obj, run (step number) construct operations = some obj ∧ Safe number obj := by
  obtain ⟨obj, reached, roomy⟩ := run_invariant
    (fun obj o roomy meets => roomy_step number obj o roomy meets) operations construct roomy_construct
    allowed
  refine ⟨obj, reached, roomy.keys_lt, roomy.values, fun key value => ?_⟩
  obtain ⟨obj', run, -⟩ := add_roomy number roomy key value
  exact ⟨obj', run⟩

/-- A range that would reach beyond the end is removed, and a smaller key added in front. -/
theorem plainArray_safe_of_run_removed :
    ∃ obj : JSAPIPlainArray Unit, run (step JSTaggedValue.getInt) construct
      [.add (.int 2) (.int 7), .add (.int 4) (.int 8), .removeRangeFrom 1 2147483646, .add (.int 1) (.int 9)] =
        some obj ∧
      Safe JSTaggedValue.getInt obj :=
  plainArray_safe_of_run JSTaggedValue.getInt _ (by decide)

/-- The arrays of a clone have as many slots as it has elements: a smaller key has no place. -/
theorem plainArray_unsafe_after_clone :
    ∃ obj : JSAPIPlainArray Unit, run (step JSTaggedValue.getInt) construct
        [.add (.int 2) (.int 7), .clone] = some obj ∧ ¬ obj.length < obj.keys.length ∧
      ¬ obj.length < obj.values.length ∧ obj.add JSTaggedValue.getInt (.int 1) (.int 8) = none ∧
      ¬ Safe JSTaggedValue.getInt obj := by
  refine ⟨_, rfl, by decide, by decide, rfl, fun safe => ?_⟩
  exact absurd safe.values (by decide)

end JSAPIPlainArray

end ArkRuntime
