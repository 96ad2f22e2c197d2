import ArkRuntime.Misc.Loop
import ArkRuntime.ContainerError
import ArkRuntime.TaggedArray

/-!
# `TaggedList`

The linked lists of `ecmascript/tagged_list.h` and `ecmascript/tagged_list.cpp`: one tagged array
holds four header slots and, from `ELEMENTS_START_INDEX` on, one node after the other. A node is
named by the index of its data slot; the next slot holds the name of the next node and, in a
`TaggedDoubleList`, the one after it the name of the previous node. The node at
`ELEMENTS_START_INDEX` is the sentinel that closes the ring.

The loops of the source go round the ring once, so `fuel` bounds them by the length of the array.
-/

namespace ArkRuntime

/-- The template argument of `TaggedList`. -/
inductive ListDerived where
  | single
  | double
  deriving DecidableEq, Repr

/-- `Derived::ENTRY_SIZE`. -/
def ListDerived.entrySize : ListDerived → Int
  | single => 2
  | double => 3

structure TaggedList (d : ListDerived) (α : Type) extends TaggedArray α

abbrev TaggedSingleList := TaggedList .single
abbrev TaggedDoubleList := TaggedList .double

/-- `JSTaggedValue::SameValue`. Numbers, strings and BigInts are compared by what they stand for;
    no value but the Hole itself is the same value as the Hole. -/
structure SameValue (α : Type) where
  same : JSTaggedValue α → JSTaggedValue α → Bool
  hole : ∀ v, same .hole v = true → v = .hole

theorem eq_of_same_hole {α : Type} [DecidableEq α] (v : JSTaggedValue α) (same : decide (.hole = v) = true) :
    v = .hole := (of_decide_eq_true same).symm

/-- Values that are the same value only if they are identical. -/
def identical (α : Type) [DecidableEq α] : SameValue α where
  same x y := decide (x = y)
  hole := eq_of_same_hole

namespace TaggedList

variable {d : ListDerived} {α : Type}

/-- `TaggedList::ELEMENTS_START_INDEX`, the sentinel. -/
def elementsStartIndex : Int := 4

/-- `TaggedList::DEFAULT_ARRAY_LENGHT`. -/
def defaultArrayLength : Int := 10

/-- `TaggedArray::Set`, which does not check the index. -/
def set (l : TaggedList d α) (index : Int) (value : JSTaggedValue α) : TaggedList d α :=
  ⟨l.toTaggedArray.set index value⟩

/-- `TaggedList::GetElement`. -/
def getElement (l : TaggedList d α) (index : Int) : JSTaggedValue α :=
  if index < 0 ∨ l.length ≤ index then .undefined else l.get index

/-- `TaggedList::SetElement`. -/
def setElement (l : TaggedList d α) (index : Int) (element : JSTaggedValue α) : TaggedList d α :=
  if index < 0 ∨ l.length ≤ index then l else l.set index element

def numberOfNodes (l : TaggedList d α) : Int := (l.get 0).getInt
def numberOfDeletedNodes (l : TaggedList d α) : Int := (l.get 1).getInt

def setNumberOfNodes (l : TaggedList d α) (nof : Int) : TaggedList d α := l.set 0 (.int nof)
def setNumberOfDeletedNodes (l : TaggedList d α) (nod : Int) : TaggedList d α := l.set 1 (.int nod)

/-- `GetElement(HEAD_TABLE_INDEX).GetInt()`. -/
def headTable (l : TaggedList d α) : Int := (l.getElement 2).getInt

/-- `GetElement(TAIL_TABLE_INDEX).GetInt()`. -/
def tailTable (l : TaggedList d α) : Int := (l.getElement 3).getInt

def setHeadTable (l : TaggedList d α) (index : Int) : TaggedList d α := l.setElement 2 (.int index)
def setTailTable (l : TaggedList d α) (index : Int) : TaggedList d α := l.setElement 3 (.int index)

/-- `GetElement(dataIndex + NEXT_PTR_OFFSET).GetInt()`. -/
def nextOf (l : TaggedList d α) (dataIndex : Int) : Int := (l.getElement (dataIndex + 1)).getInt

/-- `GetElement(dataIndex + PREV_PTR_OFFSET).GetInt()`. -/
def prevOf (l : TaggedList d α) (dataIndex : Int) : Int := (l.getElement (dataIndex + 2)).getInt

def setNext (l : TaggedList d α) (dataIndex index : Int) : TaggedList d α :=
  l.setElement (dataIndex + 1) (.int index)

def setPrev (l : TaggedList d α) (dataIndex index : Int) : TaggedList d α :=
  l.setElement (dataIndex + 2) (.int index)

/-- What is done for `TaggedDoubleList` only. -/
def whenDouble (l : TaggedList d α) (f : TaggedList d α → TaggedList d α) : TaggedList d α :=
  match d with
  | .single => l
  | .double => f l

/-- Rounds enough for every loop round the ring of `l`. -/
def fuel (l : TaggedList d α) : Nat := l.length.toNat + 1

/-! ## Making, growing and clearing a list -/

/-- `TaggedList::Create`. -/
def create (d : ListDerived) (numberOfNodes : Int) : TaggedList d α :=
  let l : TaggedList d α :=
    ⟨.newTaggedArray (elementsStartIndex + d.entrySize + numberOfNodes * d.entrySize)⟩
  let l := l.setNumberOfNodes 0
  let l := l.setNumberOfDeletedNodes 0
  let l := l.setHeadTable elementsStartIndex
  let l := l.setTailTable elementsStartIndex
  let l := l.setElement elementsStartIndex .hole
  l.setNext elementsStartIndex elementsStartIndex

/-- One round of the compacting loop of `CopyArray`: node `i + 1` of the new list. -/
def copyNode (l : TaggedList d α) (i : Nat) (s : TaggedList d α × Int) : TaggedList d α × Int :=
  let (list, srcDataIndex) := s
  let index := elementsStartIndex + d.entrySize + i * d.entrySize
  let list := list.setElement index (l.getElement srcDataIndex)
  let list := list.setNext index (index + d.entrySize)
  let list := list.whenDouble fun list => list.setPrev index (elementsStartIndex + i * d.entrySize)
  (list, l.nextOf srcDataIndex)

/-- `TaggedList::CopyArray`: the nodes of `l` in the new array `list`. -/
def copyArray (l list : TaggedList d α) : TaggedList d α :=
  if l.numberOfDeletedNodes = 0 then
    let list := forLoop (fun i (list : TaggedList d α) => list.setElement i (l.getElement i))
      l.length.toNat list
    list.setNumberOfDeletedNodes l.numberOfDeletedNodes
  else
    let actualNodeNum := l.numberOfNodes
    let tailTableIndex := elementsStartIndex + actualNodeNum * d.entrySize
    let nextTailIndex := elementsStartIndex + d.entrySize
    let list := list.setNumberOfNodes actualNodeNum
    let list := list.setNumberOfDeletedNodes 0
    let list := list.setHeadTable elementsStartIndex
    let list := list.setTailTable tailTableIndex
    let list := list.setElement elementsStartIndex .hole
    let list := list.setNext elementsStartIndex nextTailIndex
    let list := list.whenDouble fun list => list.setPrev elementsStartIndex tailTableIndex
    let srcDataIndex := l.nextOf elementsStartIndex
    let (list, _) := forLoop l.copyNode actualNodeNum.toNat (list, srcDataIndex)
    list.setNext tailTableIndex elementsStartIndex

/-- The test of `GrowCapacity`: the array has no room for one more node. -/
def mustGrow (l : TaggedList d α) : Bool :=
  let needCapacity := l.numberOfNodes + 1
  let actualArrayCapacity :=
    l.length - elementsStartIndex - (l.numberOfDeletedNodes + 1) * d.entrySize
  decide (¬ needCapacity * d.entrySize < actualArrayCapacity)

/-- `TaggedList::GrowCapacity`; `none` when the list itself is returned. -/
def growCapacity (l : TaggedList d α) : Option (TaggedList d α) :=
  if l.mustGrow then
    let length := l.numberOfNodes
    let newCapacity := length + length / 2
    some (l.copyArray (create d
      (if newCapacity < defaultArrayLength then defaultArrayLength else newCapacity)))
  else none

/-- `TaggedList::Clear`. -/
def clear (l : TaggedList d α) : TaggedList d α :=
  let (l, _) := forLoop (fun _ (s : TaggedList d α × Int) =>
    let dataIndex := s.1.nextOf s.2
    (s.1.setElement dataIndex .hole, dataIndex)) l.numberOfNodes.toNat (l, elementsStartIndex)
  let l := l.setNumberOfNodes 0
  let l := l.setNumberOfDeletedNodes 0
  let l := l.setHeadTable elementsStartIndex
  let l := l.setTailTable elementsStartIndex
  let l := l.setElement elementsStartIndex .hole
  l.setNext elementsStartIndex elementsStartIndex

/-! ## Searching -/

/-- `TaggedList::FindIndexByElement`. -/
def findIndexByElement (sv : SameValue α) (l : TaggedList d α) (element : JSTaggedValue α) :
    Option Int :=
  iter (fun (nextDataIndex, nodeSum) =>
    if nextDataIndex = elementsStartIndex then .inr (-1)
    else
      let dataIndex := nextDataIndex
      let data := l.getElement dataIndex
      let nextDataIndex := l.nextOf nextDataIndex
      if sv.same data element then .inr nodeSum else .inl (nextDataIndex, nodeSum + 1))
    l.fuel (l.nextOf elementsStartIndex, (0 : Int))

/-- `TaggedList::FindLastIndexByElement`. -/
def findLastIndexByElement (sv : SameValue α) (l : TaggedList d α) (element : JSTaggedValue α) :
    Option Int :=
  iter (fun (nextIndex, nodeSum, lastIndex) =>
    if nextIndex = elementsStartIndex then .inr lastIndex
    else
      let data := l.getElement nextIndex
      let lastIndex := if sv.same data element then nodeSum else lastIndex
      .inl (l.nextOf nextIndex, nodeSum + 1, lastIndex))
    l.fuel (l.nextOf elementsStartIndex, (0 : Int), (-1 : Int))

/-- `TaggedList::FindDataIndexByNodeIndex`. -/
def findDataIndexByNodeIndex (l : TaggedList d α) (index : Int) : Option Int :=
  iter (fun (nextIndex, nodeSum) =>
    if nextIndex = elementsStartIndex then .inr (-1)
    else if nodeSum = index then .inr nextIndex
    else .inl (l.nextOf nextIndex, nodeSum + 1))
    l.fuel (l.nextOf elementsStartIndex, (0 : Int))

/-- `TaggedList::FindPrevNodeByIndex`. -/
def findPrevNodeByIndex (l : TaggedList d α) (index : Int) : Option Int :=
  iter (fun (prevDataIndex, nodeSum) =>
    if nodeSum ≤ l.numberOfNodes then
      if nodeSum = index then .inr prevDataIndex else .inl (l.nextOf prevDataIndex, nodeSum + 1)
    else .inr (-1))
    l.fuel (elementsStartIndex, (0 : Int))

/-- `TaggedList::FindPrevNodeByValue`. -/
def findPrevNodeByValue (sv : SameValue α) (l : TaggedList d α) (element : JSTaggedValue α) :
    Option Int :=
  iter (fun (dataIndex, nodeSum) =>
    if nodeSum ≤ l.numberOfNodes then
      let nextDataIndex := l.nextOf dataIndex
      let data := l.getElement nextDataIndex
      if sv.same data element then .inr dataIndex else .inl (nextDataIndex, nodeSum + 1)
    else .inr (-1))
    l.fuel (elementsStartIndex, (0 : Int))

/-- `TaggedList::FindElementByIndex`. -/
def findElementByIndex (l : TaggedList d α) (index : Int) : Option (JSTaggedValue α) :=
  iter (fun (dataIndex, nodeSum) =>
    if dataIndex = elementsStartIndex then .inr .undefined
    else if nodeSum = index then .inr (l.getElement dataIndex)
    else .inl (l.nextOf dataIndex, nodeSum + 1))
    l.fuel (l.nextOf elementsStartIndex, (0 : Int))

/-! ## Removing a node -/

/-- `TaggedList::RemoveNode`: the node after `prevDataIndex`. -/
def removeNode (l : TaggedList d α) (prevDataIndex : Int) : TaggedList d α :=
  let tailTableIndex := l.tailTable
  if tailTableIndex ≠ l.headTable then
    let dataIndex := l.nextOf prevDataIndex
    let nextDataIndex := l.nextOf dataIndex
    let l := if dataIndex = tailTableIndex then l.setTailTable prevDataIndex else l
    let l := l.whenDouble fun l => l.setPrev nextDataIndex prevDataIndex
    let l := l.setElement dataIndex .hole
    let l := l.setNext prevDataIndex nextDataIndex
    let l := l.setNumberOfNodes (l.numberOfNodes - 1)
    l.setNumberOfDeletedNodes (l.numberOfDeletedNodes + 1)
  else l

/-- `TaggedList::RemoveByIndex`, with the data of the removed node. -/
def removeByIndex (l : TaggedList d α) (index : Int) :
    Option (JSTaggedValue α × TaggedList d α) := do
  let prevDataIndex ← l.findPrevNodeByIndex index
  let curDataIndex := l.nextOf prevDataIndex
  let data := l.getElement curDataIndex
  some (data, l.removeNode prevDataIndex)

/-! ## Adding a node -/

/-- `InsertNode` of the two lists: a node at `finalDataIndex` after the one at `prevDataIndex`. The
    double list also has the two prev links to write. -/
def insertNode (l : TaggedList d α) (value : JSTaggedValue α) (prevDataIndex finalDataIndex : Int) :
    TaggedList d α :=
  let nextDataIndex := l.nextOf prevDataIndex
  let l := l.setNext prevDataIndex finalDataIndex
  let l := l.whenDouble fun l => l.setPrev nextDataIndex finalDataIndex
  let l := l.setElement finalDataIndex value
  let l := l.setNext finalDataIndex nextDataIndex
  let l := l.whenDouble fun l => l.setPrev finalDataIndex prevDataIndex
  l.setNumberOfNodes (l.numberOfNodes + 1)

/-- The end of `AddNode` of the two lists, where the place is known. -/
def linkNode (list : TaggedList d α) (value : JSTaggedValue α) (index prevDataIndex : Int) :
    TaggedList d α :=
  let deleteNodeLength := list.numberOfDeletedNodes
  let nodeLength := list.numberOfNodes
  let finalDataIndex := elementsStartIndex + (nodeLength + 1 + deleteNodeLength) * d.entrySize
  let list := list.insertNode value prevDataIndex finalDataIndex
  if index = -1 ∨ nodeLength = index then list.setTailTable finalDataIndex else list

end TaggedList

/-! ## `TaggedSingleList` -/

namespace TaggedSingleList

open TaggedList

variable {α : Type}

/-- `TaggedSingleList::Create`. -/
def create (numberOfElements : Int) : TaggedSingleList α := TaggedList.create .single numberOfElements

/-- `TaggedSingleList::AddNode`: in a grown list the place is looked up again. -/
def addNode (l : TaggedSingleList α) (value : JSTaggedValue α) (index prevDataIndex : Int) :
    Option (TaggedSingleList α) :=
  match l.growCapacity with
  | none => some (l.linkNode value index prevDataIndex)
  | some list => do
    let prevDataIndex ← (if index = -1 then some list.tailTable else list.findPrevNodeByIndex index)
    some (list.linkNode value index prevDataIndex)

/-- `TaggedSingleList::Add`. -/
def add (l : TaggedSingleList α) (value : JSTaggedValue α) : Option (TaggedSingleList α) :=
  addNode l value (-1) l.tailTable

/-- `TaggedSingleList::Insert`. -/
def insert (l : TaggedSingleList α) (value : JSTaggedValue α) (index : Int) :
    Option (TaggedSingleList α) := do
  let tailIndex := l.tailTable
  let prevDataIndex ← (if index = -1 then some tailIndex else l.findPrevNodeByIndex index)
  addNode l value index prevDataIndex

/-- `TaggedSingleList::Get`. -/
def get (l : TaggedSingleList α) (index : Int) : Option (JSTaggedValue α) := l.findElementByIndex index

/-- `TaggedSingleList::Set`. -/
def set (l : TaggedSingleList α) (index : Int) (value : JSTaggedValue α) :
    Option (TaggedSingleList α) := do
  let dataIndex ← l.findDataIndexByNodeIndex index
  if dataIndex = -1 then some l else some (l.setElement dataIndex value)

/-- `TaggedSingleList::Remove`. -/
def remove (sv : SameValue α) (l : TaggedSingleList α) (element : JSTaggedValue α) :
    Option (Bool × TaggedSingleList α) := do
  let prevDataIndex ← l.findPrevNodeByValue sv element
  if prevDataIndex = -1 then some (false, l) else some (true, l.removeNode prevDataIndex)

/-- `TaggedList::MapNodeIndexToDataIndex`. -/
def mapNodeIndexToDataIndex (l : TaggedSingleList α) (length : Nat) : List Int × Int :=
  forLoop (fun _ (s : List Int × Int) =>
    let nextIndex := l.nextOf s.2
    (s.1 ++ [nextIndex], nextIndex)) length ([], elementsStartIndex)

/-- One round of the binary search of `Sort`, at `(beginIndex, endIndex)`; `sortCompare` is
    `SortCompare` with the callback: whether its result is positive. -/
def sortSearchStep (sortCompare : JSTaggedValue α → JSTaggedValue α → Completion Bool)
    (l : TaggedSingleList α) (indexMap : List Int) (presentValue : JSTaggedValue α) (s : Nat × Nat) :
    (Nat × Nat) ⊕ Completion Nat :=
  if s.1 < s.2 then
    let middleIndex := (s.1 + s.2) / 2
    let middleValue := l.getElement (indexMap.getD middleIndex 0)
    match sortCompare middleValue presentValue with
    | .abrupt => .inr .abrupt
    | .normal true => .inl (s.1, middleIndex)
    | .normal false => .inl (middleIndex + 1, s.2)
  else .inr (.normal s.2)

def sortSearch (sortCompare : JSTaggedValue α → JSTaggedValue α → Completion Bool)
    (l : TaggedSingleList α) (indexMap : List Int) (presentValue : JSTaggedValue α) (i : Nat) :
    Option (Completion Nat) :=
  iter (sortSearchStep sortCompare l indexMap presentValue) (i + 1) (0, i)

/-- The shift of `Sort`: the values at `endIndex, ..., i - 1` move one place up. -/
def sortShift (l : TaggedSingleList α) (indexMap : List Int) (presentValue : JSTaggedValue α)
    (i endIndex : Nat) : TaggedSingleList α :=
  let l := forLoop (fun k (l : TaggedSingleList α) =>
    let j := i - k
    l.setElement (indexMap.getD j 0) (l.getElement (indexMap.getD (j - 1) 0))) (i - endIndex) l
  l.setElement (indexMap.getD endIndex 0) presentValue

/-- One round of `Sort`: the value of node `i` goes to its place among the values before it. -/
def sortRound (sortCompare : JSTaggedValue α → JSTaggedValue α → Completion Bool)
    (indexMap : List Int) (l : TaggedSingleList α) (i : Nat) :
    Option (Completion (TaggedSingleList α)) := do
  let presentValue := l.getElement (indexMap.getD i 0)
  match ← sortSearch sortCompare l indexMap presentValue i with
  | .abrupt => some .abrupt
  | .normal endIndex =>
    if endIndex < i then some (.normal (sortShift l indexMap presentValue i endIndex))
    else some (.normal l)

/-- A round of `Sort` after the rounds so far; an exception ends the loop. -/
def sortStep (sortCompare : JSTaggedValue α → JSTaggedValue α → Completion Bool)
    (indexMap : List Int) (s : Bool × TaggedSingleList α) (i : Nat) :
    Option (Bool × TaggedSingleList α) :=
  if s.1 then some s
  else (sortRound sortCompare indexMap s.2 i).map fun
    | .abrupt => (true, s.2)
    | .normal l => (false, l)

/-- `TaggedSingleList::Sort`, with the list as it is left, also by an exception in the callback. -/
def sort (sortCompare : JSTaggedValue α → JSTaggedValue α → Completion Bool)
    (l : TaggedSingleList α) : Option (TaggedSingleList α) :=
  let length := l.numberOfNodes.toNat
  let (indexMap, _) := mapNodeIndexToDataIndex l length
  ((List.range' 1 (length - 1)).foldlM (sortStep sortCompare indexMap) (false, l)).map Prod.snd

/-- The first loop of `GetSubList`: the data indices of the nodes `fromIndex` and `toIndex`. -/
def subListRange (l : TaggedSingleList α) (fromIndex toIndex : Int) : Option (Int × Int) :=
  iter (fun (dataIndex, nodeSum, fromDataIndex) =>
    if dataIndex = elementsStartIndex then .inr (fromDataIndex, -1)
    else
      let fromDataIndex := if nodeSum = fromIndex then dataIndex else fromDataIndex
      let dataIndex := l.nextOf dataIndex
      let nodeSum := nodeSum + 1
      if nodeSum = toIndex then .inr (fromDataIndex, dataIndex)
      else .inl (dataIndex, nodeSum, fromDataIndex))
    l.fuel (l.nextOf elementsStartIndex, (0 : Int), (-1 : Int))

/-- One round of the second loop of `GetSubList`, at `(subList, fromDataIndex, curDataIndex)`. -/
def subListStep (l : TaggedSingleList α) (toDataIndex : Int) (s : TaggedSingleList α × Int × Int) :
    (TaggedSingleList α × Int × Int) ⊕ (TaggedSingleList α × Int) :=
  let (subList, fromDataIndex, preDataIndex) := s
  if fromDataIndex = toDataIndex then .inr (subList, preDataIndex)
  else
    let curDataIndex := preDataIndex + ListDerived.single.entrySize
    let data := l.getElement fromDataIndex
    let subList := subList.setNext preDataIndex curDataIndex
    let subList := subList.setElement curDataIndex data
    .inl (subList, l.nextOf fromDataIndex, curDataIndex)

/-- `TaggedSingleList::GetSubList`: fills `subList`. -/
def getSubList (l : TaggedSingleList α) (fromIndex toIndex : Int) (subList : TaggedSingleList α) :
    Option (TaggedSingleList α) := do
  let (fromDataIndex, toDataIndex) ← subListRange l fromIndex toIndex
  let (subList, curDataIndex) ←
    iter (subListStep l toDataIndex) l.fuel (subList, fromDataIndex, elementsStartIndex)
  let subList := subList.setNext curDataIndex elementsStartIndex
  let subList := subList.setHeadTable elementsStartIndex
  let subList := subList.setTailTable curDataIndex
  let subList := subList.setNumberOfNodes (toIndex - fromIndex)
  some (subList.setNumberOfDeletedNodes 0)

/-- `TaggedSingleList::SortByNodeOrder`. -/
def sortByNodeOrder (l : TaggedSingleList α) : TaggedSingleList α :=
  let actualNodeNum := l.numberOfNodes
  let nextDataIndex := l.nextOf elementsStartIndex
  let list : TaggedSingleList α := TaggedList.create .single
    (if actualNodeNum < defaultArrayLength then defaultArrayLength else actualNodeNum)
  let tailTableIndex := elementsStartIndex + actualNodeNum * ListDerived.single.entrySize
  let nextTailIndex := elementsStartIndex + ListDerived.single.entrySize
  let list := list.setNumberOfNodes actualNodeNum
  let list := list.setTailTable tailTableIndex
  let list := list.setElement elementsStartIndex .hole
  let list := list.setNext elementsStartIndex nextTailIndex
  let (list, _) := forLoop l.copyNode actualNodeNum.toNat (list, nextDataIndex)
  list.setNext tailTableIndex elementsStartIndex

end TaggedSingleList

/-! ## `TaggedDoubleList` -/

namespace TaggedDoubleList

open TaggedList

variable {α : Type}

/-- `TaggedDoubleList::Create`. -/
def create (numberOfElements : Int) : TaggedDoubleList α :=
  (TaggedList.create .double numberOfElements).setPrev elementsStartIndex elementsStartIndex

/-- `TaggedDoubleList::FindElementByIndexAtLast`. -/
def findElementByIndexAtLast (l : TaggedDoubleList α) (index : Int) : Option (JSTaggedValue α) :=
  iter (fun (preDataIndex, nodeSum) =>
    if preDataIndex = elementsStartIndex then .inr .undefined
    else
      let dataValue := l.getElement preDataIndex
      if nodeSum = index then .inr dataValue else .inl (l.prevOf preDataIndex, nodeSum - 1))
    l.fuel (l.prevOf elementsStartIndex, l.numberOfNodes - 1)

/-- `TaggedDoubleList::FindPrevNodeByIndexAtLast`. -/
def findPrevNodeByIndexAtLast (l : TaggedDoubleList α) (index : Int) : Option Int :=
  iter (fun (prevDataIndex, nodeSum) =>
    if nodeSum ≤ l.numberOfNodes then
      let prePreDataIndex := l.prevOf prevDataIndex
      if nodeSum = index then .inr prePreDataIndex else .inl (prePreDataIndex, nodeSum + 1)
    else .inr (-1))
    l.fuel (l.prevOf elementsStartIndex, (0 : Int))

/-- `TaggedDoubleList::FindPrevNodeByValueAtLast`. -/
def findPrevNodeByValueAtLast (sv : SameValue α) (l : TaggedDoubleList α)
    (element : JSTaggedValue α) : Option Int :=
  iter (fun (prevDataIndex, nodeSum) =>
    if nodeSum ≤ l.numberOfNodes then
      let prePreDataIndex := l.prevOf prevDataIndex
      let data := l.getElement prevDataIndex
      if sv.same data element then .inr prePreDataIndex else .inl (prePreDataIndex, nodeSum + 1)
    else .inr (-1))
    l.fuel (l.prevOf elementsStartIndex, (0 : Int))

/-- `TaggedDoubleList::GetPrevNode`: from the nearer end. -/
def getPrevNode (l : TaggedDoubleList α) (index : Int) : Option Int :=
  let len := l.numberOfNodes
  if len / 2 > index then l.findPrevNodeByIndex index
  else
    let leftNodeLen := len - 1 - index
    if leftNodeLen = -1 then some l.tailTable else findPrevNodeByIndexAtLast l leftNodeLen

/-- `TaggedDoubleList::AddNode`: in a grown list the place is looked up again. -/
def addNode (l : TaggedDoubleList α) (value : JSTaggedValue α) (index prevDataIndex : Int) :
    Option (TaggedDoubleList α) :=
  match l.growCapacity with
  | none => some (l.linkNode value index prevDataIndex)
  | some list => do
    let prevDataIndex ←
      (if index = -1 then some list.tailTable
      else if index = 0 then list.findPrevNodeByIndex 0
      else getPrevNode list index)
    some (list.linkNode value index prevDataIndex)

/-- `TaggedDoubleList::Add`. -/
def add (l : TaggedDoubleList α) (value : JSTaggedValue α) : Option (TaggedDoubleList α) :=
  addNode l value (-1) l.tailTable

/-- `TaggedDoubleList::AddFirst`. -/
def addFirst (l : TaggedDoubleList α) (value : JSTaggedValue α) : Option (TaggedDoubleList α) := do
  let prevDataIndex ← l.findPrevNodeByIndex 0
  addNode l value 0 prevDataIndex

/-- `TaggedDoubleList::Insert`. -/
def insert (l : TaggedDoubleList α) (value : JSTaggedValue α) (index : Int) :
    Option (TaggedDoubleList α) := do
  let prevDataIndex ← getPrevNode l index
  addNode l value index prevDataIndex

/-- `TaggedDoubleList::Get`: from the nearer end. -/
def get (l : TaggedDoubleList α) (index : Int) : Option (JSTaggedValue α) :=
  let len := l.numberOfNodes
  if len / 2 > index then l.findElementByIndex index else findElementByIndexAtLast l index

/-- `TaggedDoubleList::GetIndexOf`. -/
def getIndexOf (sv : SameValue α) (l : TaggedDoubleList α) (element : JSTaggedValue α) : Option Int :=
  l.findIndexByElement sv element

/-- `TaggedDoubleList::GetLastIndexOf`. -/
def getLastIndexOf (sv : SameValue α) (l : TaggedDoubleList α) (element : JSTaggedValue α) :
    Option Int :=
  l.findLastIndexByElement sv element

def indexError : BusinessError := ⟨.rangeError, "The value of index is out of range"⟩

/-- `TaggedDoubleList::Set`. -/
def set (l : TaggedDoubleList α) (index : Int) (value : JSTaggedValue α) :
    Option (Except BusinessError (TaggedDoubleList α)) :=
  let nodeLength := l.numberOfNodes
  if index < 0 ∨ nodeLength ≤ index then some (.error indexError)
  else do
    let dataIndex ← l.findDataIndexByNodeIndex index
    if dataIndex = -1 then some (.error indexError)
    else some (.ok (l.setElement dataIndex value))

/-- `TaggedDoubleList::Clear`. -/
def clear (l : TaggedDoubleList α) : TaggedDoubleList α :=
  (TaggedList.clear l).setPrev elementsStartIndex elementsStartIndex

/-- `TaggedDoubleList::RemoveFirst`. -/
def removeFirst (l : TaggedDoubleList α) : JSTaggedValue α × TaggedDoubleList α :=
  let firstDataIndex := l.nextOf elementsStartIndex
  let firstData := l.getElement firstDataIndex
  (firstData, l.removeNode elementsStartIndex)

/-- `TaggedDoubleList::RemoveLast`. -/
def removeLast (l : TaggedDoubleList α) : JSTaggedValue α × TaggedDoubleList α :=
  let lastDataIndex := l.prevOf elementsStartIndex
  let prevDataIndex := l.prevOf lastDataIndex
  let lastData := l.getElement lastDataIndex
  (lastData, l.removeNode prevDataIndex)

/-- `TaggedDoubleList::RemoveByIndex`. -/
def removeByIndex (l : TaggedDoubleList α) (index : Int) :
    Option (JSTaggedValue α × TaggedDoubleList α) := do
  let prevDataIndex ← getPrevNode l index
  let curDataIndex := l.nextOf prevDataIndex
  let data := l.getElement curDataIndex
  some (data, l.removeNode prevDataIndex)

/-- `TaggedDoubleList::Remove`. -/
def remove (sv : SameValue α) (l : TaggedDoubleList α) (element : JSTaggedValue α) :
    Option (Bool × TaggedDoubleList α) := do
  let prevDataIndex ← l.findPrevNodeByValue sv element
  if prevDataIndex = -1 then some (false, l) else some (true, l.removeNode prevDataIndex)

def notExistError : BusinessError :=
  ⟨.isNotExistError, "The element does not exist in this container"⟩

/-- `TaggedDoubleList::RemoveFirstFound`. -/
def removeFirstFound (sv : SameValue α) (l : TaggedDoubleList α) (element : JSTaggedValue α) :
    Option (Except BusinessError (TaggedDoubleList α)) := do
  let prevDataIndex ← l.findPrevNodeByValue sv element
  if prevDataIndex = -1 then some (.error notExistError)
  else some (.ok (l.removeNode prevDataIndex))

/-- `TaggedDoubleList::RemoveLastFound`. -/
def removeLastFound (sv : SameValue α) (l : TaggedDoubleList α) (element : JSTaggedValue α) :
    Option (Except BusinessError (TaggedDoubleList α)) := do
  let prevDataIndex ← findPrevNodeByValueAtLast sv l element
  if prevDataIndex = -1 then some (.error notExistError)
  else some (.ok (l.removeNode prevDataIndex))

end TaggedDoubleList

end ArkRuntime
