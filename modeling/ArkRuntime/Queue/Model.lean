import ArkRuntime.Misc.Loop
import ArkRuntime.TaggedArray
import ArkRuntime.ContainerError

/-!
# Queues

Three ring buffers. `TaggedQueue` (`ecmascript/tagged_queue.h`) keeps its capacity, the slot of its first
element and the slot behind its last one in front of its slots, in one tagged array; it starts without
slots and one slot of the ring is always free. `JSAPIQueue` (`ecmascript/js_api/js_api_queue.cpp`) is the
container of the standard library, with its length and both ends as fields; `JSAPIDeque`
(`ecmascript/js_api/js_api_deque.cpp`) keeps only the two ends.

The indices are `uint32_t`. An array that does not fit into the heap is not allocated: the operation
that needs it ends in an out of memory error, which is `none`.
-/

namespace ArkRuntime

variable {α : Type}

/-- `MAX_HEAP_SIZE` (`ecmascript/ecma_param_configuration.h`): no heap is larger, 1024 MB. -/
def maxHeapSizeLimit : Nat := 1024 * 1024 * 1024

/-- `TaggedArray::ComputeSize`: two words and eight bytes for each element. -/
def TaggedArray.computeSize (length : Nat) : Nat := 16 + 8 * length

structure TaggedQueue (α : Type) extends TaggedArray α

namespace TaggedQueue

/-- `MIN_CAPACITY`. -/
def minCapacity : UInt32 := 2

/-- `MAX_QUEUE_INDEX`. -/
def maxQueueIndex : UInt32 := 4294967295 - 3

/-- `QueueToArrayIndex`. -/
def queueToArrayIndex (index : UInt32) : UInt32 := index + 3

/-- `TaggedArray::Set`. -/
def setArray (q : TaggedQueue α) (index : UInt32) (value : JSTaggedValue α) : TaggedQueue α :=
  ⟨q.toTaggedArray.set index.toNat value⟩

/-- `JSTaggedValue::GetArrayLength` of a slot of the array. -/
def getArrayLength (q : TaggedQueue α) (index : UInt32) : UInt32 :=
  UInt32.ofNat (q.toTaggedArray.get index.toNat).getInt.toNat

def getCapacity (q : TaggedQueue α) : UInt32 := q.getArrayLength 0
def getStart (q : TaggedQueue α) : UInt32 := q.getArrayLength 1
def getEnd (q : TaggedQueue α) : UInt32 := q.getArrayLength 2

def setCapacity (q : TaggedQueue α) (capacity : UInt32) : TaggedQueue α :=
  q.setArray 0 (.int capacity.toNat)

def setStart (q : TaggedQueue α) (start : UInt32) : TaggedQueue α := q.setArray 1 (.int start.toNat)
def setEnd (q : TaggedQueue α) (last : UInt32) : TaggedQueue α := q.setArray 2 (.int last.toNat)

/-- `TaggedQueue::Get`. -/
def get (q : TaggedQueue α) (index : UInt32) : JSTaggedValue α :=
  q.toTaggedArray.get (queueToArrayIndex index).toNat

/-- `TaggedQueue::Set`. -/
def set (q : TaggedQueue α) (index : UInt32) (value : JSTaggedValue α) : TaggedQueue α :=
  q.setArray (queueToArrayIndex index) value

/-- `ObjectFactory::NewTaggedQueue`, in a heap of `maxHeapSize` bytes. -/
def newTaggedQueue (maxHeapSize : Nat) (length : UInt32) : Option (TaggedQueue α) :=
  let queueLength := queueToArrayIndex length
  if TaggedArray.computeSize queueLength.toNat ≤ maxHeapSize then
    let q : TaggedQueue α := ⟨.newTaggedArray queueLength.toNat⟩
    let q := q.setStart 0
    let q := q.setEnd 0
    some (q.setCapacity length)
  else none

/-- `ObjectFactory::GetEmptyTaggedQueue`, the queue of capacity 0. -/
def emptyTaggedQueue : TaggedQueue α :=
  let q : TaggedQueue α := ⟨.newTaggedArray 3⟩
  let q := q.setStart 0
  let q := q.setEnd 0
  q.setCapacity 0

/-- `TaggedQueue::Empty`. -/
def empty (q : TaggedQueue α) : Bool := q.getStart = q.getEnd

/-- `TaggedQueue::Pop`. -/
def pop (q : TaggedQueue α) : JSTaggedValue α × TaggedQueue α :=
  if q.empty then (.hole, q)
  else
    let start := q.getStart
    let value := q.get start
    let q := q.set start .hole
    let capacity := q.getCapacity
    (value, q.setStart ((start + 1) % capacity))

/-- `TaggedQueue::Front`. -/
def front (q : TaggedQueue α) : JSTaggedValue α :=
  if q.empty then .hole else q.get q.getStart

/-- `TaggedQueue::Back`. -/
def back (q : TaggedQueue α) : JSTaggedValue α :=
  if q.empty then .hole else q.get (q.getEnd - 1)

/-- `TaggedQueue::Size`. -/
def size (q : TaggedQueue α) : UInt32 :=
  let capacity := q.getCapacity
  if capacity = 0 then 0 else (q.getEnd - q.getStart + capacity) % capacity

/-- One round of the copy loop of `Push`: the new queue, the slot to copy and `newEnd`. -/
def copyStep (q : TaggedQueue α) (capacity : UInt32) (s : TaggedQueue α × UInt32 × UInt32) :
    TaggedQueue α × UInt32 × UInt32 :=
  (s.1.set s.2.2 (q.get s.2.1), (s.2.1 + 1) % capacity, s.2.2 + 1)

/-- `TaggedQueue::Push`. -/
def push (maxHeapSize : Nat) (q : TaggedQueue α) (value : JSTaggedValue α) :
    Option (TaggedQueue α) :=
  let capacity := q.getCapacity
  if capacity = 0 then do
    let newQueue ← newTaggedQueue maxHeapSize minCapacity
    let newQueue := newQueue.set 0 value
    let newQueue := newQueue.setCapacity minCapacity
    let newQueue := newQueue.setStart 0
    return newQueue.setEnd 1
  else
    let start := q.getStart
    let last := q.getEnd
    let size := q.size
    if (last + 1) % capacity = start then
      if capacity = maxQueueIndex then some q
      else do
        let newCapacity := capacity + (capacity >>> 1)
        let newCapacity := if newCapacity < capacity then maxQueueIndex else newCapacity
        let newQueue ← newTaggedQueue maxHeapSize newCapacity
        let (newQueue, _, newEnd) :=
          forLoop (fun _ => q.copyStep capacity) size.toNat (newQueue, start, 0)
        let newQueue := newQueue.setCapacity newCapacity
        let newQueue := newQueue.setStart 0
        let newQueue := newQueue.set newEnd value
        return newQueue.setEnd (newEnd + 1)
    else
      let q := q.set last value
      some (q.setEnd ((last + 1) % capacity))

end TaggedQueue

/-- The container: its elements, its length and the two ends of the ring. -/
structure JSAPIQueue (α : Type) where
  elements : TaggedArray α
  length : UInt32
  front : UInt32
  tail : UInt32

namespace JSAPIQueue

/-- `DEFAULT_CAPACITY_LENGTH`. -/
def defaultCapacityLength : UInt32 := 8

/-- `ContainersQueue::QueueConstructor`. -/
def construct : JSAPIQueue α := ⟨.newTaggedArray defaultCapacityLength.toNat, 0, 0, 0⟩

/-- `TaggedArray::GetLength`. -/
def elementsLength (queue : JSAPIQueue α) : UInt32 := UInt32.ofNat queue.elements.length.toNat

/-- `ComputeCapacity`. -/
def computeCapacity (oldCapacity : UInt32) : UInt32 :=
  let newCapacity := oldCapacity + (oldCapacity >>> 1)
  if newCapacity > defaultCapacityLength then newCapacity else defaultCapacityLength

/-- One round of `ObjectFactory::CopyQueue`: the new array, `curIndex` and `newIndex`. -/
def copyQueueStep (old : TaggedArray α) (oldCapacity tail : UInt32)
    (s : TaggedArray α × UInt32 × UInt32) :
    (TaggedArray α × UInt32 × UInt32) ⊕ TaggedArray α :=
  if s.2.1 = tail then .inr s.1
  else .inl (s.1.set s.2.2.toNat (old.get s.2.1.toNat), (s.2.1 + 1) % oldCapacity, s.2.2 + 1)

/-- `ObjectFactory::CopyQueue`. -/
def copyQueue (maxHeapSize : Nat) (old : TaggedArray α) (newLength front tail : UInt32) :
    Option (TaggedArray α) :=
  if TaggedArray.computeSize newLength.toNat ≤ maxHeapSize then
    let oldCapacity := UInt32.ofNat old.length.toNat
    iter (copyQueueStep old oldCapacity tail) (oldCapacity.toNat + 1)
      (.newTaggedArray newLength.toNat, front, 0)
  else none

/-- `ObjectFactory::CopyArray` to a longer array. -/
def extend (maxHeapSize : Nat) (old : TaggedArray α) (newLength : UInt32) :
    Option (TaggedArray α) :=
  if TaggedArray.computeSize newLength.toNat ≤ maxHeapSize then some (old.extendArray newLength.toNat)
  else none

/-- `JSAPIQueue::GrowCapacity`. -/
def growCapacity (maxHeapSize : Nat) (queue : JSAPIQueue α) (capacity : UInt32) :
    Option (JSAPIQueue α) :=
  let oldLength := queue.elementsLength
  if oldLength = 0 then do
    let newElements ← extend maxHeapSize queue.elements (computeCapacity capacity)
    return { queue with elements := newElements }
  else if (queue.tail + 1) % oldLength = queue.front then do
    let newElements ←
      copyQueue maxHeapSize queue.elements (computeCapacity capacity) queue.front queue.tail
    return { queue with elements := newElements, front := 0, tail := oldLength - 1 }
  else some queue

/-- `JSAPIQueue::Add`. -/
def add (maxHeapSize : Nat) (queue : JSAPIQueue α) (value : JSTaggedValue α) :
    Option (JSAPIQueue α) := do
  let queue ← queue.growCapacity maxHeapSize (queue.length + 1)
  let tail := queue.tail
  return { queue with
    elements := queue.elements.set tail.toNat value
    length := queue.length + 1
    tail := (tail + 1) % queue.elementsLength }

/-- `JSAPIQueue::GetFirst`. -/
def getFirst (queue : JSAPIQueue α) : JSTaggedValue α :=
  if queue.length < 1 then .undefined else queue.elements.get queue.front.toNat

/-- `JSAPIQueue::Pop`. -/
def pop (queue : JSAPIQueue α) : JSTaggedValue α × JSAPIQueue α :=
  if queue.length < 1 then (.undefined, queue)
  else
    (queue.elements.get queue.front.toNat,
      { queue with
        length := queue.length - 1
        front := (queue.front + 1) % queue.elementsLength })

/-- `JSAPIQueue::Get`. -/
def get (queue : JSAPIQueue α) (index : UInt32) : Except BusinessError (JSTaggedValue α) :=
  if queue.length ≤ index then
    .error (.outOfRange "Get property index" (queue.length - 1).toNat index.toNat)
  else
    let curIndex := (queue.front + index) % queue.elementsLength
    .ok (queue.elements.get curIndex.toNat)

/-- `JSAPIQueue::Set`. -/
def set (queue : JSAPIQueue α) (index : UInt32) (value : JSTaggedValue α) :
    Except BusinessError (JSAPIQueue α) :=
  if queue.length ≤ index then
    .error (.outOfRange "Set property index" (queue.length - 1).toNat index.toNat)
  else .ok { queue with elements := queue.elements.set index.toNat value }

end JSAPIQueue

/-- The container: its elements and the two ends of the ring, `last` behind the last element. -/
structure JSAPIDeque (α : Type) where
  elements : TaggedArray α
  first : UInt32
  last : UInt32

namespace JSAPIDeque

/-- `DEFAULT_CAPACITY_LENGTH`. -/
def defaultCapacityLength : UInt32 := 8

/-- `ContainersDeque::DequeConstructor`. -/
def construct : JSAPIDeque α := ⟨.newTaggedArray defaultCapacityLength.toNat, 0, 0⟩

/-- `TaggedArray::GetLength`. -/
def elementsLength (deque : JSAPIDeque α) : UInt32 := UInt32.ofNat deque.elements.length.toNat

/-- `ComputeCapacity`. -/
def computeCapacity (oldCapacity : UInt32) : UInt32 :=
  let newCapacity := oldCapacity <<< 1
  if newCapacity > defaultCapacityLength then newCapacity else defaultCapacityLength

/-- `ObjectFactory::CopyDeque`, which has the same loop as `CopyQueue`. -/
def copyDeque (maxHeapSize : Nat) (old : TaggedArray α) (newLength first last : UInt32) :
    Option (TaggedArray α) :=
  JSAPIQueue.copyQueue maxHeapSize old newLength first last

/-- `JSAPIDeque::IsEmpty`. -/
def isEmpty (deque : JSAPIDeque α) : Bool := deque.first = deque.last

/-- `JSAPIDeque::GetSize`. -/
def getSize (deque : JSAPIDeque α) : UInt32 :=
  (deque.last - deque.first + deque.elementsLength) % deque.elementsLength

/-- `JSAPIDeque::GrowCapacity`. -/
def growCapacity (maxHeapSize : Nat) (deque : JSAPIDeque α) (oldCapacity first last : UInt32) :
    Option (JSAPIDeque α) := do
  let newElements ← copyDeque maxHeapSize deque.elements (computeCapacity oldCapacity) first last
  return { deque with elements := newElements }

/-- `JSAPIDeque::InsertFront`. -/
def insertFront (maxHeapSize : Nat) (deque : JSAPIDeque α) (value : JSTaggedValue α) :
    Option (JSAPIDeque α) := do
  let capacity := deque.elementsLength
  let first := deque.first
  let last := deque.last
  let (deque, first) ←
    if (first + capacity - 1) % capacity = last then do
      let deque ← deque.growCapacity maxHeapSize capacity first last
      some ({ deque with last := capacity - 1 }, (0 : UInt32))
    else some (deque, first)
  let capacity := deque.elementsLength
  let first := (first + capacity - 1) % capacity
  return { deque with elements := deque.elements.set first.toNat value, first := first }

/-- `JSAPIDeque::InsertEnd`. -/
def insertEnd (maxHeapSize : Nat) (deque : JSAPIDeque α) (value : JSTaggedValue α) :
    Option (JSAPIDeque α) := do
  let capacity := deque.elementsLength
  let first := deque.first
  let last := deque.last
  let (deque, last) ←
    if first = (last + 1) % capacity then do
      let deque ← deque.growCapacity maxHeapSize capacity first last
      some ({ deque with first := 0 }, capacity - 1)
    else some (deque, last)
  let elements := deque.elements.set last.toNat value
  let capacity := deque.elementsLength
  return { deque with elements := elements, last := (last + 1) % capacity }

/-- `JSAPIDeque::GetFront`. -/
def getFront (deque : JSAPIDeque α) : JSTaggedValue α :=
  if deque.isEmpty then .undefined else deque.elements.get deque.first.toNat

/-- `JSAPIDeque::GetTail`. -/
def getTail (deque : JSAPIDeque α) : JSTaggedValue α :=
  if deque.isEmpty then .undefined
  else
    let capacity := deque.elementsLength
    deque.elements.get ((deque.last + capacity - 1) % capacity).toNat

/-- `JSAPIDeque::PopFirst`. -/
def popFirst (deque : JSAPIDeque α) : JSTaggedValue α × JSAPIDeque α :=
  if deque.isEmpty then (.undefined, deque)
  else
    let first := deque.first
    let capacity := deque.elementsLength
    let firstElement := deque.elements.get first.toNat
    (firstElement, { deque with first := (first + 1) % capacity })

/-- `JSAPIDeque::PopLast`. -/
def popLast (deque : JSAPIDeque α) : JSTaggedValue α × JSAPIDeque α :=
  if deque.isEmpty then (.undefined, deque)
  else
    let capacity := deque.elementsLength
    let last := (deque.last + capacity - 1) % capacity
    let lastElement := deque.elements.get last.toNat
    (lastElement, { deque with last := last })

/-- `JSAPIDeque::Get`, at an index below the size. -/
def get (deque : JSAPIDeque α) (index : UInt32) : JSTaggedValue α :=
  let capacity := deque.elementsLength
  let curIndex := (deque.first + index) % capacity
  deque.elements.get curIndex.toNat

/-- `JSAPIDeque::Set`, at an index below the size. -/
def set (deque : JSAPIDeque α) (index : UInt32) (value : JSTaggedValue α) : JSAPIDeque α :=
  let capacity := deque.elementsLength
  let curIndex := (deque.first + index) % capacity
  { deque with elements := deque.elements.set curIndex.toNat value }

/-- One round of the loop of `Has`. -/
def hasStep (sameValue : JSTaggedValue α → JSTaggedValue α → Bool) (deque : JSAPIDeque α)
    (value : JSTaggedValue α) (index : UInt32) : UInt32 ⊕ Bool :=
  if index = deque.last then .inr false
  else if sameValue (deque.elements.get index.toNat) value then .inr true
  else .inl ((index + 1) % deque.elementsLength)

/-- `JSAPIDeque::Has`. -/
def has (sameValue : JSTaggedValue α → JSTaggedValue α → Bool) (deque : JSAPIDeque α)
    (value : JSTaggedValue α) : Option Bool :=
  iter (deque.hasStep sameValue value) (deque.elementsLength.toNat + 1) deque.first

/-- What `JSAPIDeque::OwnKeys` and `JSAPIDeque::OwnEnumKeys` do to the deque before they list
    the own properties of the object. -/
def relayout (maxHeapSize : Nat) (deque : JSAPIDeque α) : Option (JSAPIDeque α) := do
  let length := deque.getSize
  let oldCapacity := deque.elementsLength
  let newCapacity := computeCapacity oldCapacity
  let newElements ← copyDeque maxHeapSize deque.elements newCapacity deque.first deque.last
  return { elements := newElements, first := 0, last := length }

def ownKeys (maxHeapSize : Nat) (deque : JSAPIDeque α) : Option (JSAPIDeque α) :=
  deque.relayout maxHeapSize

def ownEnumKeys (maxHeapSize : Nat) (deque : JSAPIDeque α) : Option (JSAPIDeque α) :=
  deque.relayout maxHeapSize

end JSAPIDeque

end ArkRuntime
