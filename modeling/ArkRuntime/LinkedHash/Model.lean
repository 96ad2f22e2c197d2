import ArkRuntime.Misc.Loop
import ArkRuntime.TaggedArray

/-!
# `LinkedHashTable`

The tables behind `Map` and `Set` (`ecmascript/linked_hash_table.h` and
`ecmascript/linked_hash_table.cpp`): a header, one bucket for each place of the capacity, and the
entries in the order in which they were inserted. An entry is its key, in a map its value, and the
number of the entry that comes next in the chain of its bucket. A removed entry keeps its place in
the chain, with a Hole as its key.

Growing and shrinking make a new table; the old one then names it in its `NEXT_TABLE` slot, and the
chain slots of its Holes are used again, to count the Holes up to them. Iterators that still stand in
the old table find their place in the new one with these counts (`JSMapIterator`,
`ecmascript/js_map_iterator.cpp`). The tables live in a heap, and a table is named by its address.
-/

namespace ArkRuntime

/-- The template argument of `LinkedHashTable`. -/
inductive HashDerived where
  | map
  | set
  deriving DecidableEq, Repr

/-- `HashObject::ENTRY_SIZE`. -/
def HashDerived.entrySize : HashDerived → Nat
  | map => 2
  | set => 1

/-- `HashObject::ENTRY_VALUE_INDEX`. -/
def HashDerived.entryValueIndex : HashDerived → Int
  | map => 1
  | set => 0

/-- What the tables ask of the rest of the runtime: `JSTaggedValue::SameValueZero`,
    `LinkedHash::Hash` as the unsigned value that `HashToBucket` takes, and
    `helpers::math::GetPowerOfTwoValue32`. -/
structure HashRuntime (α : Type) where
  sameValueZero : JSTaggedValue α → JSTaggedValue α → Bool
  hash : JSTaggedValue α → UInt32
  getPowerOfTwoValue32 : Nat → Nat
  refl : ∀ x, sameValueZero x x = true
  symm : ∀ x y, sameValueZero x y = true → sameValueZero y x = true
  trans : ∀ x y z, sameValueZero x y = true → sameValueZero y z = true → sameValueZero x z = true
  hole : ∀ v, sameValueZero .hole v = true → v = .hole
  hash_eq : ∀ x y, sameValueZero x y = true → hash x = hash y
  le_powerOfTwo : ∀ n, n ≤ getPowerOfTwoValue32 n

/-- The `NEXT_TABLE` slot holds a table, which is named by its address, or a Hole. -/
structure LinkedHashTable (d : HashDerived) (α : Type) extends TaggedArray α where
  nextTable : Option Nat

namespace LinkedHashTable

variable {d : HashDerived} {α : Type}

/-- `MIN_CAPACITY`. -/
def minCapacity : Nat := 4

/-- `MIN_SHRINK_CAPACITY`: a table is not shrunk below this capacity. -/
def minShrinkCapacity : Nat := 16

/-- `ELEMENTS_START_INDEX`. -/
def elementsStartIndex : Int := 4

def getElement (t : LinkedHashTable d α) (index : Int) : JSTaggedValue α := t.get index

def setElement (t : LinkedHashTable d α) (index : Int) (element : JSTaggedValue α) :
    LinkedHashTable d α :=
  { t with toTaggedArray := t.toTaggedArray.set index element }

def numberOfElements (t : LinkedHashTable d α) : Int := (t.get 0).getInt
def numberOfDeletedElements (t : LinkedHashTable d α) : Int := (t.get 1).getInt
def capacity (t : LinkedHashTable d α) : Int := (t.get 2).getInt

def setNumberOfElements (t : LinkedHashTable d α) (nof : Int) : LinkedHashTable d α :=
  t.setElement 0 (.int nof)

def setNumberOfDeletedElements (t : LinkedHashTable d α) (nod : Int) : LinkedHashTable d α :=
  t.setElement 1 (.int nod)

def setCapacity (t : LinkedHashTable d α) (capacity : Int) : LinkedHashTable d α :=
  t.setElement 2 (.int capacity)

def setNextTable (t : LinkedHashTable d α) (nextTable : Nat) : LinkedHashTable d α :=
  { t with nextTable := some nextTable }

/-- `HashToBucket`: the hash modulo the capacity, which is a power of two. -/
def hashToBucket (t : LinkedHashTable d α) (hash : UInt32) : Nat :=
  hash.toNat &&& (t.capacity - 1).toNat

def bucketToIndex (bucket : Nat) : Int := bucket + elementsStartIndex

def entryToIndex (t : LinkedHashTable d α) (entry : Int) : Int :=
  elementsStartIndex + t.capacity + entry * (d.entrySize + 1)

def getKey (t : LinkedHashTable d α) (entry : Int) : JSTaggedValue α :=
  t.getElement (t.entryToIndex entry)

def getValue (t : LinkedHashTable d α) (entry : Int) : JSTaggedValue α :=
  t.getElement (t.entryToIndex entry + d.entryValueIndex)

def setKey (t : LinkedHashTable d α) (entry : Int) (key : JSTaggedValue α) : LinkedHashTable d α :=
  t.setElement (t.entryToIndex entry) key

/-- `SetValue`; the value of an entry of a set is its key. -/
def setValue (t : LinkedHashTable d α) (entry : Int) (value : JSTaggedValue α) :
    LinkedHashTable d α :=
  t.setElement (t.entryToIndex entry + d.entryValueIndex) value

def getNextEntry (t : LinkedHashTable d α) (entry : Int) : JSTaggedValue α :=
  t.getElement (t.entryToIndex entry + d.entrySize)

def setNextEntry (t : LinkedHashTable d α) (entry : Int) (nextEntry : JSTaggedValue α) :
    LinkedHashTable d α :=
  t.setElement (t.entryToIndex entry + d.entrySize) nextEntry

/-- `GetDeletedNum`: in a retired table the chain slot of a Hole counts the Holes up to it. -/
def getDeletedNum (t : LinkedHashTable d α) (entry : Int) : Int := (t.getNextEntry entry).getInt

def setDeletedNum (t : LinkedHashTable d α) (entry : Int) (num : Int) : LinkedHashTable d α :=
  t.setNextEntry entry (.int num)

/-- `LinkedHashTable::Create`. -/
def create (d : HashDerived) (numberOfElements : Nat) : LinkedHashTable d α :=
  let length := elementsStartIndex + numberOfElements + numberOfElements * (d.entrySize + 1)
  let t : LinkedHashTable d α := ⟨.newTaggedArray length, none⟩
  let t := t.setNumberOfElements 0
  let t := t.setNumberOfDeletedElements 0
  t.setCapacity numberOfElements

/-- `HasSufficientCapacity`: half of the table is still free with the new elements in it, and at
    most half of what is free are removed entries. -/
def hasSufficientCapacity (t : LinkedHashTable d α) (numOfAddElements : Int) : Bool :=
  let nof := t.numberOfElements + numOfAddElements
  if nof < t.capacity ∧ t.numberOfDeletedElements ≤ (t.capacity - nof) / 2 then
    decide (nof + nof / 2 ≤ t.capacity)
  else false

section Runtime

variable (rt : HashRuntime α)

/-- `ComputeCapacity`. -/
def computeCapacity (atLeastSpaceFor : Nat) : Nat :=
  let capacity := rt.getPowerOfTwoValue32 (atLeastSpaceFor + (atLeastSpaceFor >>> 1))
  if capacity > minCapacity then capacity else minCapacity

/-- `ComputeCapacityWithShrink`. -/
def computeCapacityWithShrink (currentCapacity atLeastSpaceFor : Int) : Int :=
  if atLeastSpaceFor > currentCapacity / 4 then currentCapacity
  else
    let newCapacity := computeCapacity rt atLeastSpaceFor.toNat
    if newCapacity < minShrinkCapacity then currentCapacity else newCapacity

/-- One round of `FindElement`, at the entry that a bucket or a chain slot names. -/
def findStep (t : LinkedHashTable d α) (key entry : JSTaggedValue α) : JSTaggedValue α ⊕ Int :=
  if entry.isHole then .inr (-1)
  else
    let element := t.getKey entry.getInt
    if element.isHole then .inl (t.getNextEntry entry.getInt)
    else if rt.sameValueZero key element then .inr entry.getInt
    else .inl (t.getNextEntry entry.getInt)

/-- `FindElement`: the entry of the key, or -1. A chain is not longer than the capacity. -/
def findElement (t : LinkedHashTable d α) (key : JSTaggedValue α) : Option Int :=
  if key.isHole then some (-1)
  else
    let bucket := t.hashToBucket (rt.hash key)
    iter (t.findStep rt key) (t.capacity.toNat + 1) (t.getElement (bucketToIndex bucket))

/-- `RemoveEntry`. -/
def removeEntry (t : LinkedHashTable d α) (entry : Int) : LinkedHashTable d α :=
  let index := t.entryToIndex entry
  let t := forLoop (fun i (t : LinkedHashTable d α) => t.setElement (index + i) .hole) d.entrySize t
  let t := t.setNumberOfElements (t.numberOfElements - 1)
  t.setNumberOfDeletedElements (t.numberOfDeletedElements + 1)

/-- `InsertNewEntry`: the entry becomes the first of its bucket's chain. -/
def insertNewEntry (t : LinkedHashTable d α) (bucket : Nat) (entry : Int) : LinkedHashTable d α :=
  let previousEntry := t.getElement (bucketToIndex bucket)
  let t := t.setNextEntry entry previousEntry
  t.setElement (bucketToIndex bucket) (.int entry)

/-- The part of `Insert` after `GrowCapacity`: the key goes behind all entries there ever were. -/
def insertAtEnd (t : LinkedHashTable d α) (key value : JSTaggedValue α) : LinkedHashTable d α :=
  let bucket := t.hashToBucket (rt.hash key)
  let entry := t.numberOfElements + t.numberOfDeletedElements
  let t := t.insertNewEntry bucket entry
  let t := t.setKey entry key
  let t := t.setValue entry value
  t.setNumberOfElements (t.numberOfElements + 1)

/-- The variables of `Rehash`. -/
structure RehashState (d : HashDerived) (α : Type) where
  table : LinkedHashTable d α
  newTable : LinkedHashTable d α
  desEntry : Nat
  currentDeletedElements : Nat

/-- One round of `Rehash`. -/
def rehashEntry (i : Nat) (s : RehashState d α) : RehashState d α :=
  let fromIndex := s.table.entryToIndex i
  let key := s.table.getElement fromIndex
  if key.isHole then
    let currentDeletedElements := s.currentDeletedElements + 1
    { s with
      table := s.table.setDeletedNum i currentDeletedElements
      currentDeletedElements := currentDeletedElements }
  else
    let bucket := s.newTable.hashToBucket (rt.hash key)
    let newTable := s.newTable.insertNewEntry bucket s.desEntry
    let desIndex := newTable.entryToIndex s.desEntry
    let newTable := forLoop (fun j (newTable : LinkedHashTable d α) =>
      newTable.setElement (desIndex + j) (s.table.getElement (fromIndex + j))) d.entrySize newTable
    { s with newTable := newTable, desEntry := s.desEntry + 1 }

/-- `Rehash` of `table` into `newTable`, which has the address `address`. -/
def rehash (table newTable : LinkedHashTable d α) (address : Nat) :
    LinkedHashTable d α × LinkedHashTable d α :=
  let numberOfAllElements := table.numberOfElements + table.numberOfDeletedElements
  let table := table.setNextTable address
  let s := forLoop (rehashEntry rt) numberOfAllElements.toNat ⟨table, newTable, 0, 0⟩
  let newTable := s.newTable.setNumberOfElements s.table.numberOfElements
  let newTable := newTable.setNumberOfDeletedElements 0
  (s.table, newTable)

end Runtime

/-- The loop of `GetDeletedElementsAt`, from the entry before `entry` downwards. -/
def deletedElementsBelow (t : LinkedHashTable d α) : Nat → Int
  | 0 => 0
  | entry + 1 =>
      if (t.getKey entry).isHole then t.getDeletedNum entry else t.deletedElementsBelow entry

/-- `GetDeletedElementsAt`: how many entries before `entry` are not in the next table. A cleared
    table has -1 deleted elements. -/
def getDeletedElementsAt (t : LinkedHashTable d α) (entry : Int) : Int :=
  if t.numberOfDeletedElements = -1 then entry else t.deletedElementsBelow entry.toNat

end LinkedHashTable

/-- The tables of a run; those from `size` on are not allocated yet. -/
structure TableHeap (d : HashDerived) (α : Type) where
  size : Nat
  table : Nat → LinkedHashTable d α

namespace TableHeap

open LinkedHashTable

variable {d : HashDerived} {α : Type} (rt : HashRuntime α)

def write (h : TableHeap d α) (address : Nat) (t : LinkedHashTable d α) : TableHeap d α :=
  { h with table := Function.update h.table address t }

/-- `LinkedHashTable::Create` in the heap. -/
def create (h : TableHeap d α) (numberOfElements : Nat) : TableHeap d α × Nat :=
  (⟨h.size + 1, Function.update h.table h.size (.create d numberOfElements)⟩, h.size)

/-- `table->Rehash(thread, *newTable)`. -/
def rehash (h : TableHeap d α) (table newTable : Nat) : TableHeap d α :=
  let (old, new) := LinkedHashTable.rehash rt (h.table table) (h.table newTable) newTable
  (h.write table old).write newTable new

/-- `LinkedHashTable::GrowCapacity`. -/
def growCapacity (h : TableHeap d α) (table : Nat) (numberOfAddedElements : Int) :
    TableHeap d α × Nat :=
  if (h.table table).hasSufficientCapacity numberOfAddedElements then (h, table)
  else
    let newCapacity :=
      computeCapacity rt ((h.table table).numberOfElements + numberOfAddedElements).toNat
    let (h, newTable) := h.create newCapacity
    (h.rehash rt table newTable, newTable)

/-- `LinkedHashTable::Insert`. -/
def insert (h : TableHeap d α) (table : Nat) (key value : JSTaggedValue α) :
    Option (TableHeap d α × Nat) := do
  let entry ← (h.table table).findElement rt key
  if entry ≠ -1 then
    return (h.write table ((h.table table).setValue entry value), table)
  let (h, newTable) := h.growCapacity rt table 1
  return (h.write newTable ((h.table newTable).insertAtEnd rt key value), newTable)

/-- `LinkedHashTable::Shrink`. -/
def shrink (h : TableHeap d α) (table : Nat) (additionalCapacity : Int) : TableHeap d α × Nat :=
  let newCapacity := computeCapacityWithShrink rt (h.table table).capacity
    ((h.table table).numberOfElements + additionalCapacity)
  if newCapacity = (h.table table).capacity then (h, table)
  else
    let (h, newTable) := h.create newCapacity.toNat
    (h.rehash rt table newTable, newTable)

/-- `LinkedHashTable::Remove`. -/
def remove (h : TableHeap d α) (table : Nat) (key : JSTaggedValue α) :
    Option (TableHeap d α × Nat) := do
  let entry ← (h.table table).findElement rt key
  if entry = -1 then
    return (h, table)
  let h := h.write table ((h.table table).removeEntry entry)
  return h.shrink rt table 0

/-- `JSMap::Delete` and `JSSet::Delete`, which do not shrink the table. -/
def delete (h : TableHeap d α) (table : Nat) (key : JSTaggedValue α) :
    Option (TableHeap d α × Bool) := do
  let entry ← (h.table table).findElement rt key
  if entry = -1 then
    return (h, false)
  return (h.write table ((h.table table).removeEntry entry), true)

/-- `LinkedHashMap::Clear` and `LinkedHashSet::Clear`. -/
def clear (h : TableHeap d α) (table : Nat) : TableHeap d α × Nat :=
  let (h, newMap) := h.create minCapacity
  if (h.table table).capacity > 0 then
    let old := ((h.table table).setNextTable newMap).setNumberOfDeletedElements (-1)
    (h.write table old, newMap)
  else (h, newMap)

end TableHeap

/-- `IterationKind`. -/
inductive IterationKind where
  | key
  | value
  | keyAndValue
  deriving DecidableEq, Repr

/-- The value of an iterator result: a tagged value, or the array of a key and a value. -/
inductive IterValue (α : Type) where
  | tagged (v : JSTaggedValue α)
  | array (key value : JSTaggedValue α)
  deriving DecidableEq, Repr

/-- `JSIterator::CreateIterResultObject`. -/
structure IterResult (α : Type) where
  value : IterValue α
  done : Bool
  deriving DecidableEq, Repr

/-- A map iterator; its map is `undefined` once it is done. -/
structure JSMapIterator where
  iteratedMap : Option Nat
  nextIndex : Int
  iterationKind : IterationKind

namespace JSMapIterator

variable {α : Type}

/-- `ObjectFactory::NewJSMapIterator`. -/
def newJSMapIterator (linkedMap : Nat) (kind : IterationKind) : JSMapIterator :=
  ⟨some linkedMap, 0, kind⟩

/-- One round of `Update`: from a retired table to the table that replaced it. -/
def updateStep (h : TableHeap .map α) (s : Nat × Int) : (Nat × Int) ⊕ (Nat × Int) :=
  match (h.table s.1).nextTable with
  | none => .inr s
  | some next => .inl (next, s.2 - (h.table s.1).getDeletedElementsAt s.2)

/-- `JSMapIterator::Update`. -/
def update (h : TableHeap .map α) (it : JSMapIterator) : Option JSMapIterator :=
  match it.iteratedMap with
  | none => some it
  | some map => do
      let (map, index) ← iter (updateStep h) (h.size + 1) (map, it.nextIndex)
      return { it with iteratedMap := some map, nextIndex := index }

/-- One round of the search for the next entry that is not removed. -/
def nextStep (t : LinkedHashTable .map α) (totalElements index : Int) : Int ⊕ Option Int :=
  if index < totalElements then
    if (t.getKey index).isHole then .inl (index + 1) else .inr (some index)
  else .inr none

/-- What is handed out for an entry. -/
def itemOf (kind : IterationKind) (key value : JSTaggedValue α) : IterValue α :=
  match kind with
  | .key => .tagged key
  | .value => .tagged value
  | .keyAndValue => .array key value

/-- `JSMapIterator::NextInternal`. -/
def nextInternal (h : TableHeap .map α) (it : JSMapIterator) :
    Option (IterResult α × JSMapIterator) := do
  let it ← it.update h
  match it.iteratedMap with
  | none => return (⟨.tagged .undefined, true⟩, it)
  | some map =>
      let t := h.table map
      let totalElements := t.numberOfElements + t.numberOfDeletedElements
      let found ← iter (nextStep t totalElements) (totalElements.toNat + 1) it.nextIndex
      match found with
      | some index =>
          return (⟨itemOf it.iterationKind (t.getKey index) (t.getValue index), false⟩,
            { it with nextIndex := index + 1 })
      | none => return (⟨.tagged .undefined, true⟩, { it with iteratedMap := none })

end JSMapIterator

end ArkRuntime
