import ArkRuntime.LightWeight.Slots
import ArkRuntime.ContainerError
import ArkRuntime.Misc.BinarySearch

/-!
# `LightWeightSet`

`JSAPILightWeightSet` (`ecmascript/js_api/js_api_lightweightset.cpp`): the values and their hashes in two
arrays, sorted by the hash. A hash is a `uint32_t`; it is stored as a number, here `.int`, be it an
integer or a double of the source. `SameValue` and `Hash` are parameters, and so is what `GetNumber`
makes of a value that is no such number: the hash array should not hold one.
-/

namespace ArkRuntime

variable {α : Type}

structure SetOps (α : Type) where
  hash : JSTaggedValue α → UInt32
  sameValue : JSTaggedValue α → JSTaggedValue α → Bool
  /-- `static_cast<uint32_t>(GetNumber())` of a value that is no `uint32_t`. -/
  castNumber : JSTaggedValue α → UInt32
  /-- `GetNumber() == hash` of a value that is no `uint32_t`. -/
  numberIs : JSTaggedValue α → UInt32 → Bool

namespace SetOps

/-- The slot that holds a hash. -/
def hashSlot (hash : UInt32) : JSTaggedValue α := .int hash.toNat

/-- `static_cast<uint32_t>(value.GetNumber())`. -/
def getUint32 (ops : SetOps α) (value : JSTaggedValue α) : UInt32 :=
  match value with
  | .int i => if 0 ≤ i ∧ i < 2 ^ 32 then UInt32.ofNat i.toNat else ops.castNumber value
  | _ => ops.castNumber value

/-- `value.GetNumber() == hash`. -/
def isNumber (ops : SetOps α) (value : JSTaggedValue α) (hash : UInt32) : Bool :=
  match value with
  | .int i => if 0 ≤ i ∧ i < 2 ^ 32 then i == hash.toNat else ops.numberIs value hash
  | _ => ops.numberIs value hash

end SetOps

structure JSAPILightWeightSet (α : Type) where
  hashes : Slots α
  values : Slots α
  length : Nat

namespace JSAPILightWeightSet

/-- `DEFAULT_CAPACITY_LENGTH`. -/
def defaultCapacityLength : Nat := 8

/-- `ContainersLightWeightSet::LightWeightSetConstructor`. -/
def construct : JSAPILightWeightSet α :=
  ⟨.newTaggedArray defaultCapacityLength, .newTaggedArray defaultCapacityLength, 0⟩

variable (ops : SetOps α)

/-- `BinarySearchHashes`. -/
def binarySearchHashes (obj : JSAPILightWeightSet α) (hash : UInt32) (size : Nat) : Option Int :=
  binarySearch (fun i => obj.hashes[i]?.map fun v => ((ops.getUint32 v).toNat : Int)) hash.toNat size

/-- `GetHashIndex`. -/
def getHashIndex (obj : JSAPILightWeightSet α) (value : JSTaggedValue α) (size : Nat) : Option Int := do
  let hashCode := ops.hash value
  let index ← obj.binarySearchHashes ops hashCode size
  if index < 0 then return index
  else
    let sameHash i := obj.hashes[i]?.map (ops.isNumber · hashCode)
    let sameKey i := obj.values[i]?.map (ops.sameValue · value)
    let start := index.toNat
    let here ← sameKey start
    if start < size ∧ here then return index
    else
      let (right, found) ← scanRight sameHash sameKey (size - start) start
      if found then return (right : Int)
      else
        match ← scanLeft sameHash sameKey start with
        | some left => return (left : Int)
        | none => return -(right : Int)

/-- `AdjustArray`. -/
def adjustArray (obj : JSAPILightWeightSet α) (srcArray : Slots α) (fromIndex toIndex : Nat)
    (direction : Bool) : Option (Slots α) :=
  let size := obj.length
  if direction then shiftUp (toIndex - fromIndex) (size - 1) srcArray
  else copyDown (size - fromIndex) fromIndex toIndex srcArray

/-- The shift in `Add`, when the new slot is not the last one. -/
def makeRoom (obj : JSAPILightWeightSet α) (srcArray : Slots α) (index : Nat) : Option (Slots α) :=
  if index < obj.length then obj.adjustArray srcArray index obj.length true else some srcArray

/-- The expansion in `Add`. -/
def expand (hashArray valueArray : Slots α) (size : Nat) : Option (Slots α × Slots α) :=
  let capacity := hashArray.length
  if capacity ≤ size + 1 then do
    let newCapacity := capacity <<< 1
    let hashArray ← hashArray.copyArray capacity newCapacity
    let valueArray ← valueArray.copyArray capacity newCapacity
    return (hashArray, valueArray)
  else some (hashArray, valueArray)

/-- `Add`. `CheckAndCopyValues` does not change what the arrays hold. -/
def add (obj : JSAPILightWeightSet α) (value : JSTaggedValue α) :
    Option (JSAPILightWeightSet α × Bool) := do
  let hashCode := ops.hash value
  let size := obj.length
  let index ← obj.getHashIndex ops value size
  if 0 ≤ index then return (obj, false)
  else
    -- `index ^= HASH_REBELLION`, all bits inverted
    let index := (-index - 1).toNat
    let hashArray ← obj.makeRoom obj.hashes index
    let valueArray ← obj.makeRoom obj.values index
    let (hashArray, valueArray) ← expand hashArray valueArray size
    let hashArray ← store hashArray index (SetOps.hashSlot hashCode)
    let valueArray ← store valueArray index value
    return (⟨hashArray, valueArray, size + 1⟩, true)

/-- `GetValueAt`. -/
def getValueAt (obj : JSAPILightWeightSet α) (index : Nat) : Option (JSTaggedValue α) :=
  if obj.length ≤ index then some .undefined else obj.values[index]?

/-- `SizeCopy`. -/
def sizeCopy (obj : JSAPILightWeightSet α) (capacity newCapacity : Nat) :
    Option (JSAPILightWeightSet α) := do
  let hashArray ← obj.hashes.copyArray capacity newCapacity
  let valueArray ← obj.values.copyArray capacity newCapacity
  return { obj with values := hashArray, hashes := valueArray }

/-- The loop of `EnsureCapacity`: `newCapacity`. -/
def enlarged (capacity minimumCapacity : Nat) : Option Nat :=
  iter (fun newCapacity => if newCapacity ≤ minimumCapacity then .inl (newCapacity <<< 1)
    else .inr newCapacity) (minimumCapacity + 2) capacity

/-- `EnsureCapacity`. -/
def ensureCapacity (obj : JSAPILightWeightSet α) (minimumCapacity : Nat) :
    Option (JSAPILightWeightSet α) :=
  let capacity := obj.values.length
  if minimumCapacity < capacity then some obj
  else do
    let newCapacity ← enlarged capacity minimumCapacity
    obj.sizeCopy capacity newCapacity

/-- The argument of `AddAll`: another set, or the set itself. -/
inductive Source (α : Type) where
  | other (src : JSAPILightWeightSet α)
  | self

/-- The set that the argument of `AddAll` is while the receiver is `obj`. -/
def Source.get (obj : JSAPILightWeightSet α) : Source α → JSAPILightWeightSet α
  | .other src => src
  | .self => obj

/-- The loop of `AddAll`, `n` rounds from the index `i` on. -/
def addAllFrom (src : Source α) : Nat → Nat → JSAPILightWeightSet α → Bool →
    Option (JSAPILightWeightSet α × Bool)
  | 0, _, obj, changed => some (obj, changed)
  | n + 1, i, obj, changed => do
      let element ← (src.get obj).getValueAt i
      let (obj, added) ← obj.add ops element
      addAllFrom src n (i + 1) obj (changed || added)

/-- `AddAll`. -/
def addAll (obj : JSAPILightWeightSet α) (src : Source α) : Option (JSAPILightWeightSet α × Bool) := do
  let srcSize := (src.get obj).length
  let size := obj.length
  let obj ← obj.ensureCapacity (size + srcSize)
  addAllFrom ops src srcSize 0 obj false

/-- The range error of `IncreaseCapacityTo`. -/
def minimumCapacityError (capacity minCapacity : Int) : BusinessError where
  flag := .rangeError
  message := "The value of \"minimumCapacity\" is out of range. It must be > " ++ toString capacity ++
    ". Received value is: " ++ toString minCapacity

/-- `IncreaseCapacityTo`: the set, and the error that was thrown. -/
def increaseCapacityTo (obj : JSAPILightWeightSet α) (minCapacity : Int) :
    Option (JSAPILightWeightSet α × Option BusinessError) :=
  let capacity := obj.values.length
  if minCapacity ≤ 0 ∨ minCapacity ≤ capacity then
    some (obj, some (minimumCapacityError capacity minCapacity))
  else do
    let newElements ← obj.hashes.newAndCopyTaggedArray minCapacity.toNat capacity
    return ({ obj with hashes := newElements }, none)

/-- `RemoveAt`. -/
def removeAt (obj : JSAPILightWeightSet α) (index : Int) : Option (JSAPILightWeightSet α × Bool) :=
  if index < 0 ∨ (obj.length : Int) ≤ index then some (obj, false)
  else do
    let hashArray ← obj.hashes.removeElementByIndex index.toNat obj.length
    let valueArray ← obj.values.removeElementByIndex index.toNat obj.length
    return (⟨hashArray, valueArray, obj.length - 1⟩, true)

/-- `Remove`. -/
def remove (obj : JSAPILightWeightSet α) (value : JSTaggedValue α) :
    Option (JSAPILightWeightSet α × JSTaggedValue α) := do
  let index ← obj.getHashIndex ops value obj.length
  if index < 0 then return (obj, .undefined)
  else
    let result ← obj.values[index.toNat]?
    let (obj, _) ← obj.removeAt index
    return (obj, result)

/-- `Clear`. -/
def clear (obj : JSAPILightWeightSet α) : Option (JSAPILightWeightSet α) := do
  let hashArray ← fill .hole obj.length 0 obj.hashes
  let valueArray ← fill .hole obj.length 0 obj.values
  return ⟨hashArray, valueArray, 0⟩

/-- `Has`. -/
def has (obj : JSAPILightWeightSet α) (value : JSTaggedValue α) : Option Bool := do
  let index ← obj.getHashIndex ops value obj.length
  return !(index < 0)

end JSAPILightWeightSet

end ArkRuntime
