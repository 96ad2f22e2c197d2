import ArkRuntime.LightWeight.Slots
import ArkRuntime.ContainerError
import ArkRuntime.Misc.BinarySearch

/-!
# `LightWeightMap`

`JSAPILightWeightMap` (`ecmascript/js_api/js_api_lightweightmap.cpp`): the hashes, the keys and the values
in three arrays, sorted by the hash, an `int32_t`. `SameValue` and `Hash` are parameters.
-/

namespace ArkRuntime

variable {α : Type}

structure MapOps (α : Type) where
  hash : JSTaggedValue α → Int
  sameValue : JSTaggedValue α → JSTaggedValue α → Bool

structure JSAPILightWeightMap (α : Type) where
  hashes : Slots α
  keys : Slots α
  values : Slots α
  length : Nat

/-- `AccossorsKind`. -/
inductive AccossorsKind where
  | hash
  | key
  | value

/-- Whether a key exists, its hash, and the index where it is or will be inserted. -/
structure KeyState where
  existed : Bool
  hash : Int
  index : Int

namespace JSAPILightWeightMap

/-- `DEFAULT_CAPACITY_LENGTH`. -/
def defaultCapacityLength : Nat := 8

/-- `ContainersLightWeightMap::LightWeightMapConstructor`. -/
def construct : JSAPILightWeightMap α :=
  ⟨.newTaggedArray defaultCapacityLength, .newTaggedArray defaultCapacityLength,
    .newTaggedArray defaultCapacityLength, 0⟩

def getArrayByKind (map : JSAPILightWeightMap α) : AccossorsKind → Slots α
  | .hash => map.hashes
  | .key => map.keys
  | .value => map.values

def setArrayByKind (map : JSAPILightWeightMap α) (array : Slots α) :
    AccossorsKind → JSAPILightWeightMap α
  | .hash => { map with hashes := array }
  | .key => { map with keys := array }
  | .value => { map with values := array }

/-- `ComputeCapacity`. -/
def computeCapacity (oldCapacity : Nat) : Nat :=
  let newCapacity := oldCapacity + (oldCapacity >>> 1)
  if defaultCapacityLength < newCapacity then newCapacity else defaultCapacityLength

/-- `GrowCapacity`. -/
def growCapacity (oldArray : Slots α) (needCapacity : Nat) : Option (Slots α) :=
  if needCapacity ≤ oldArray.length then some oldArray
  else oldArray.copyArray oldArray.length (computeCapacity needCapacity)

/-- `IncreaseCapacityTo`. -/
def increaseCapacityTo (map : JSAPILightWeightMap α) (index : Int) :
    Option (JSAPILightWeightMap α × Bool) :=
  if index < defaultCapacityLength ∨ index ≤ map.length then some (map, false)
  else do
    let newHashArray ← growCapacity map.hashes index.toNat
    let newKeyArray ← growCapacity map.keys index.toNat
    let newValueArray ← growCapacity map.values index.toNat
    return (⟨newHashArray, newKeyArray, newValueArray, map.length⟩, true)

/-- `InsertValue`. -/
def insertValue (map : JSAPILightWeightMap α) (index : Nat) (value : JSTaggedValue α)
    (kind : AccossorsKind) : Option (JSAPILightWeightMap α) := do
  let array := map.getArrayByKind kind
  let len := map.length
  let newArray ← growCapacity array (len + 1)
  let newArray ← newArray.insertElementByIndex value index len
  return map.setArrayByKind newArray kind

/-- `ReplaceValue`. -/
def replaceValue (map : JSAPILightWeightMap α) (index : Nat) (value : JSTaggedValue α)
    (kind : AccossorsKind) : Option (JSAPILightWeightMap α) := do
  let array ← store (map.getArrayByKind kind) index value
  return map.setArrayByKind array kind

/-- `RemoveValue`. -/
def removeValue (map : JSAPILightWeightMap α) (index : Nat) (kind : AccossorsKind) :
    Option (JSAPILightWeightMap α) := do
  let array ← (map.getArrayByKind kind).removeElementByIndex index map.length
  return map.setArrayByKind array kind

variable (ops : MapOps α)

/-- `BinarySearchHashes`. -/
def binarySearchHashes (array : Slots α) (hash : Int) (size : Nat) : Option Int :=
  binarySearch (fun i => array[i]?.map JSTaggedValue.getInt) hash size

/-- The slot holds the hash: a condition of the loops over equal hashes. -/
def sameHash (hashArray : Slots α) (hash : Int) (i : Nat) : Option Bool :=
  hashArray[i]?.map fun v => v.getInt == hash

/-- The slot holds the key. -/
def sameKey (keyArray : Slots α) (key : JSTaggedValue α) (i : Nat) : Option Bool :=
  keyArray[i]?.map (ops.sameValue · key)

/-- `GetStateOfKey`. -/
def getStateOfKey (map : JSAPILightWeightMap α) (key : JSTaggedValue α) : Option KeyState := do
  let hash := ops.hash key
  let length := map.length
  let index ← binarySearchHashes map.hashes hash length
  if 0 ≤ index then
    let start := index.toNat
    let (right, found) ← scanRight (sameHash map.hashes hash) (sameKey ops map.keys key)
      (length - start) start
    if found then return ⟨true, hash, right⟩
    else
      match ← scanLeft (sameHash map.hashes hash) (sameKey ops map.keys key) start with
      | some left => return ⟨true, hash, left⟩
      | none => return ⟨false, hash, right⟩
  else return ⟨false, hash, -index - 1⟩

/-- `Set`. -/
def set (map : JSAPILightWeightMap α) (key value : JSTaggedValue α) :
    Option (JSAPILightWeightMap α) := do
  let keyState ← map.getStateOfKey ops key
  let index := keyState.index.toNat
  if keyState.existed then map.replaceValue index value .value
  else do
    let map ← map.insertValue index (.int keyState.hash) .hash
    let map ← map.insertValue index key .key
    let map ← map.insertValue index value .value
    return { map with length := map.length + 1 }

/-- `HasKey`. -/
def hasKey (map : JSAPILightWeightMap α) (key : JSTaggedValue α) : Option Bool := do
  let keyState ← map.getStateOfKey ops key
  return keyState.existed

/-- `GetIndexOfKey`. -/
def getIndexOfKey (map : JSAPILightWeightMap α) (key : JSTaggedValue α) : Option Int := do
  let keyState ← map.getStateOfKey ops key
  return if keyState.existed then keyState.index else -1

/-- `Get`. -/
def get (map : JSAPILightWeightMap α) (key : JSTaggedValue α) : Option (JSTaggedValue α) := do
  let index ← map.getIndexOfKey ops key
  if index < 0 then return .undefined else map.values[index.toNat]?

/-- `AvoidHashCollision`. -/
def avoidHashCollision (hashArray keyArray : Slots α) (key : JSTaggedValue α) (index size : Nat)
    (hash : Int) : Option Int := do
  let (right, found) ← scanRight (sameHash hashArray hash) (sameKey ops keyArray key) (size - index) index
  if found then return right
  else
    match ← scanLeft (sameHash hashArray hash) (sameKey ops keyArray key) index with
    | some left => return left
    -- `(-right) ^ HASH_REBELLION`
    | none => return right - 1

/-- The loop of `HasAll`, `n` rounds from `num` on. -/
def hasAllFrom (map newMap : JSAPILightWeightMap α) : Nat → Nat → Option Bool
  | 0, _ => some true
  | n + 1, num => do
      let dealKey ← newMap.keys[num]?
      let hash := ops.hash dealKey
      let index ← binarySearchHashes map.hashes hash map.length
      if index < 0 ∨ (map.length : Int) ≤ index then return false
      else
        let index ← avoidHashCollision ops map.hashes map.keys dealKey index.toNat map.length hash
        let key ← if index < 0 then none else map.keys[index.toNat]?
        let value ← map.values[index.toNat]?
        let newValue ← newMap.values[num]?
        if !ops.sameValue key dealKey || !ops.sameValue value newValue then return false
        else hasAllFrom map newMap n (num + 1)

/-- `HasAll`. -/
def hasAll (map newMap : JSAPILightWeightMap α) : Option Bool :=
  if map.length < newMap.length then some false else hasAllFrom ops map newMap newMap.length 0

/-- The slots of the three arrays at `index` are taken out, in `Remove` and `RemoveAt`. -/
def removeEntry (map : JSAPILightWeightMap α) (index : Nat) : Option (JSAPILightWeightMap α) := do
  let map ← map.removeValue index .hash
  let map ← map.removeValue index .value
  let map ← map.removeValue index .key
  return { map with length := map.length - 1 }

/-- `Remove`. -/
def remove (map : JSAPILightWeightMap α) (key : JSTaggedValue α) :
    Option (JSAPILightWeightMap α × JSTaggedValue α) := do
  let keyState ← map.getStateOfKey ops key
  if !keyState.existed then return (map, .undefined)
  else
    let index := keyState.index.toNat
    let value ← map.values[index]?
    let map ← map.removeEntry index
    return (map, value)

/-- `RemoveAt`. -/
def removeAt (map : JSAPILightWeightMap α) (index : Int) : Option (JSAPILightWeightMap α × Bool) :=
  if index < 0 ∨ (map.length : Int) ≤ index then some (map, false)
  else do
    let map ← map.removeEntry index.toNat
    return (map, true)

/-- `Clear`. -/
def clear (_map : JSAPILightWeightMap α) : JSAPILightWeightMap α :=
  ⟨.newTaggedArray defaultCapacityLength, .newTaggedArray defaultCapacityLength,
    .newTaggedArray defaultCapacityLength, 0⟩

/-- `SetValueAt`: the map, or the error that is thrown. -/
def setValueAt (map : JSAPILightWeightMap α) (index : Int) (value : JSTaggedValue α) :
    Option (Except BusinessError (JSAPILightWeightMap α)) :=
  if index < 0 ∨ (map.length : Int) ≤ index then
    some (.error (.outOfRange "index" (map.length - 1) index))
  else (map.replaceValue index.toNat value .value).map .ok

/-! ## Several maps -/

/-- The maps of the program, by their addresses. -/
abbrev Heap (α : Type) := Nat → JSAPILightWeightMap α

/-- The loop of `SetAll`, `n` rounds from `num` on. When both maps are one, `Set` replaces values in
    the array that is read. -/
def setAllFrom (map needMap : Nat) : Nat → Nat → Heap α → Option (Heap α)
  | 0, _, heap => some heap
  | n + 1, num, heap => do
      let key ← (heap needMap).keys[num]?
      let value ← (heap needMap).values[num]?
      let result ← (heap map).set ops key value
      setAllFrom map needMap n (num + 1) (Function.update heap map result)

/-- `SetAll`. -/
def setAll (heap : Heap α) (map needMap : Nat) : Option (Heap α) :=
  setAllFrom ops map needMap (heap needMap).length 0 heap

end JSAPILightWeightMap

end ArkRuntime
