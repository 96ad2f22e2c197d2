import ArkRuntime.Misc.Loop
import ArkRuntime.TaggedArray

/-!
# `TaggedTree`

The red-black tree of `ecmascript/tagged_tree.h` and `ecmascript/tagged_tree.cpp`: one tagged array
holds five header slots and, from `ELEMENTS_START_INDEX` on, one entry after the other. An entry is
named by its number; `-1` stands for "no entry". `Derived` is `TaggedTreeMap` or `TaggedTreeSet`,
which differ in the layout of an entry only.

The loops of the source run over the entries of one tree, so `fuel` bounds them by the capacity.
-/

namespace ArkRuntime

/-- The template argument of `TaggedTree`. -/
inductive TreeDerived where
  | map
  | set
  deriving DecidableEq, Repr

/-- `TreeColor`. -/
inductive TreeColor where
  | black
  | red
  deriving DecidableEq, Repr

namespace TreeColor

def toInt : TreeColor → Int
  | black => 0
  | red => 1

def ofInt (i : Int) : TreeColor := if i = 1 then red else black

@[simp] theorem ofInt_toInt (c : TreeColor) : ofInt c.toInt = c := by cases c <;> rfl

end TreeColor

namespace TreeDerived

/-- `Derived::ENTRY_SIZE`. -/
def entrySize : TreeDerived → Int
  | map => 6
  | set => 5

/-- `Derived::ENTRY_VALUE_INDEX`; the value of a set entry is its key. -/
def valueIndex : TreeDerived → Int
  | map => 1
  | set => 0

/-- `Derived::ENTRY_COLOR_INDEX`. -/
def colorIndex : TreeDerived → Int
  | map => 2
  | set => 1

/-- `Derived::ENTRY_PARENT_INDEX`. -/
def parentIndex : TreeDerived → Int
  | map => 3
  | set => 2

/-- `Derived::ENTRY_LEFT_CHILD_INDEX`. -/
def leftChildIndex : TreeDerived → Int
  | map => 4
  | set => 3

/-- `Derived::ENTRY_RIGHT_CHILD_INDEX`. -/
def rightChildIndex : TreeDerived → Int
  | map => 5
  | set => 4

end TreeDerived

/-- What a call of the comparison callback gives back: a boolean, an integer, any other value
    after `ToNumber` (cut to an integer, `none` for NaN), or an exception. -/
inductive CallResult where
  | boolean (b : Bool)
  | int (i : Int)
  | number (value : Option Int)
  | abrupt
  deriving DecidableEq, Repr

/-- The order on keys the runtime provides: `OrdinayEntryCompare` and the calls of callbacks. -/
structure CompareEnv (α : Type) where
  ordinary : JSTaggedValue α → JSTaggedValue α → Completion ComparisonResult
  call : JSTaggedValue α → JSTaggedValue α → JSTaggedValue α → CallResult

structure TaggedTree (d : TreeDerived) (α : Type) extends TaggedArray α

namespace TaggedTree

variable {d : TreeDerived} {α : Type}

/-- `TaggedTree::MIN_CAPACITY`. -/
def minCapacity : Int := 7

/-- `TaggedTree::MIN_SHRINK_CAPACITY`. -/
def minShrinkCapacity : Int := 15

def set (t : TaggedTree d α) (i : Int) (v : JSTaggedValue α) : TaggedTree d α :=
  ⟨t.toTaggedArray.set i v⟩

/-! ## The header -/

def numberOfElements (t : TaggedTree d α) : Int := (t.get 0).getInt
def numberOfDeletedElements (t : TaggedTree d α) : Int := (t.get 1).getInt
def capacity (t : TaggedTree d α) : Int := (t.get 2).getInt
def getRootEntries (t : TaggedTree d α) : Int := (t.get 3).getInt
def getCompare (t : TaggedTree d α) : JSTaggedValue α := t.get 4

def setNumberOfElements (t : TaggedTree d α) (num : Int) : TaggedTree d α := t.set 0 (.int num)
def setNumberOfDeletedElements (t : TaggedTree d α) (num : Int) : TaggedTree d α :=
  t.set 1 (.int num)
def setCapacity (t : TaggedTree d α) (capacity : Int) : TaggedTree d α := t.set 2 (.int capacity)
def setRootEntries (t : TaggedTree d α) (num : Int) : TaggedTree d α := t.set 3 (.int num)
def setCompare (t : TaggedTree d α) (fn : JSTaggedValue α) : TaggedTree d α := t.set 4 fn

/-- Rounds enough for every loop over the entries of `t`. -/
def fuel (t : TaggedTree d α) : Nat := t.capacity.toNat + 1

/-! ## The entries -/

/-- `TaggedTree::EntryToIndex`; the source computes it modulo `2 ^ 32`. -/
def entryToIndex (d : TreeDerived) (entry : Int) : Int := 5 + entry * d.entrySize

def getKey (t : TaggedTree d α) (entry : Int) : JSTaggedValue α :=
  if entry < 0 then .hole else t.get (entryToIndex d entry)

def getValue (t : TaggedTree d α) (entry : Int) : JSTaggedValue α :=
  t.get (entryToIndex d entry + d.valueIndex)

def getColor (t : TaggedTree d α) (entry : Int) : TreeColor :=
  if entry < 0 then .black else .ofInt (t.get (entryToIndex d entry + d.colorIndex)).getInt

def getParent (t : TaggedTree d α) (entry : Int) : Int :=
  (t.get (entryToIndex d entry + d.parentIndex)).getInt

def getLeftChild (t : TaggedTree d α) (parent : Int) : JSTaggedValue α :=
  if parent < 0 then .hole else t.get (entryToIndex d parent + d.leftChildIndex)

def getRightChild (t : TaggedTree d α) (parent : Int) : JSTaggedValue α :=
  if parent < 0 then .hole else t.get (entryToIndex d parent + d.rightChildIndex)

/-- A child slot read as an entry number. -/
def childEntry (child : JSTaggedValue α) : Int := if child.isHole then -1 else child.getInt

def getLeftChildIndex (t : TaggedTree d α) (parent : Int) : Int := childEntry (t.getLeftChild parent)

def getRightChildIndex (t : TaggedTree d α) (parent : Int) : Int :=
  childEntry (t.getRightChild parent)

def setKey (t : TaggedTree d α) (entry : Int) (key : JSTaggedValue α) : TaggedTree d α :=
  t.set (entryToIndex d entry) key

def setValue (t : TaggedTree d α) (entry : Int) (value : JSTaggedValue α) : TaggedTree d α :=
  t.set (entryToIndex d entry + d.valueIndex) value

def setColor (t : TaggedTree d α) (entry : Int) (color : TreeColor) : TaggedTree d α :=
  if 0 ≤ entry then t.set (entryToIndex d entry + d.colorIndex) (.int color.toInt) else t

def setParent (t : TaggedTree d α) (entry : Int) (value : JSTaggedValue α) : TaggedTree d α :=
  if entry < 0 then t else t.set (entryToIndex d entry + d.parentIndex) value

def setLeftChild (t : TaggedTree d α) (entry : Int) (value : JSTaggedValue α) : TaggedTree d α :=
  t.set (entryToIndex d entry + d.leftChildIndex) value

def setRightChild (t : TaggedTree d α) (entry : Int) (value : JSTaggedValue α) : TaggedTree d α :=
  t.set (entryToIndex d entry + d.rightChildIndex) value

def getRootKey (t : TaggedTree d α) : JSTaggedValue α := t.getKey t.getRootEntries

/-- `TaggedTree::GetLeftBrother`: the right child of the parent. -/
def getLeftBrother (t : TaggedTree d α) (entry : Int) : Int :=
  childEntry (t.getRightChild (t.getParent entry))

/-- `TaggedTree::GetRightBrother`: the left child of the parent. -/
def getRightBrother (t : TaggedTree d α) (entry : Int) : Int :=
  childEntry (t.getLeftChild (t.getParent entry))

def isLeft (t : TaggedTree d α) (entry : Int) : Bool :=
  let child := t.getLeftChild (t.getParent entry)
  if child.isHole then false else child.getInt = entry

def isRight (t : TaggedTree d α) (entry : Int) : Bool :=
  let child := t.getRightChild (t.getParent entry)
  if child.isHole then false else child.getInt = entry

def isValidIndex (t : TaggedTree d α) (entry : Int) : Bool :=
  entry ≠ t.getRootEntries ∧ (t.getKey entry).isHole = false

def setRoot (t : TaggedTree d α) (index : Int) (key value : JSTaggedValue α) : TaggedTree d α :=
  let t := t.setKey 0 key
  let t := t.setValue 0 value
  let t := t.setParent 0 (.int (-1))
  let t := t.setColor 0 .black
  t.setRootEntries index

def insertLeftEntry (t : TaggedTree d α) (parentIndex entry : Int) (key value : JSTaggedValue α) :
    TaggedTree d α :=
  let t := t.setKey entry key
  let t := t.setValue entry value
  let t := t.setColor entry .red
  let t := t.setParent entry (.int parentIndex)
  t.setLeftChild parentIndex (.int entry)

def insertRightEntry (t : TaggedTree d α) (parentIndex entry : Int) (key value : JSTaggedValue α) :
    TaggedTree d α :=
  let t := t.setKey entry key
  let t := t.setValue entry value
  let t := t.setColor entry .red
  let t := t.setParent entry (.int parentIndex)
  t.setRightChild parentIndex (.int entry)

/-- `CopyEntry` of the derived classes. -/
def copyEntry (t : TaggedTree d α) (parent : Int) (newTree : TaggedTree d α) (index : Int) :
    TaggedTree d α :=
  let newTree := newTree.setKey index (t.getKey parent)
  let newTree := newTree.setColor index (t.getColor parent)
  newTree.setValue index (t.getValue parent)

/-- `CopyData` of the derived classes. -/
def copyData (t : TaggedTree d α) (dst src : Int) : TaggedTree d α :=
  let t := t.setKey dst (t.getKey src)
  t.setValue dst (t.getValue src)

/-- `RemoveEntry` of the derived classes. -/
def removeEntry (t : TaggedTree d α) (index : Int) : TaggedTree d α :=
  let t := t.setKey index .hole
  let t := t.setParent index .hole
  let t := t.setLeftChild index .hole
  let t := t.setRightChild index .hole
  t.setValue index .hole

/-! ## Construction and rotations -/

/-- `TaggedTree::Create`. -/
def create (d : TreeDerived) (α : Type) (numberOfElements : Int) : TaggedTree d α :=
  let capacity := if minCapacity < numberOfElements then numberOfElements else minCapacity
  let length := 5 + capacity * d.entrySize
  let tree : TaggedTree d α := ⟨.newTaggedArray length⟩
  let tree := tree.setNumberOfElements 0
  let tree := tree.setNumberOfDeletedElements 0
  let tree := tree.setRootEntries (-1)
  let tree := tree.setCompare .hole
  tree.setCapacity capacity

/-- `TaggedTree::LeftRotate`. -/
def leftRotate (t : TaggedTree d α) (index : Int) : TaggedTree d α :=
  if 0 ≤ index then
    let right := (t.getRightChild index).getInt
    let leftOfRight := t.getLeftChild right
    let t := t.setRightChild index leftOfRight
    let t := if leftOfRight.isHole then t else t.setParent leftOfRight.getInt (.int index)
    let parentOfIndex := t.getParent index
    let t := t.setParent right (.int parentOfIndex)
    let t :=
      if parentOfIndex < 0 then
        t.setRootEntries right
      else
        let left := t.getLeftChild parentOfIndex
        if left.isHole = false ∧ left.getInt = index then
          t.setLeftChild parentOfIndex (.int right)
        else
          t.setRightChild parentOfIndex (.int right)
    let t := t.setLeftChild right (.int index)
    t.setParent index (.int right)
  else
    t

/-- `TaggedTree::RightRotate`. -/
def rightRotate (t : TaggedTree d α) (index : Int) : TaggedTree d α :=
  if 0 ≤ index then
    let left := (t.getLeftChild index).getInt
    let rightOfLeft := t.getRightChild left
    let t := t.setLeftChild index rightOfLeft
    let t := if rightOfLeft.isHole then t else t.setParent rightOfLeft.getInt (.int index)
    let parentOfIndex := t.getParent index
    let t := t.setParent left (.int parentOfIndex)
    let t :=
      if parentOfIndex < 0 then
        t.setRootEntries left
      else
        let right := t.getRightChild parentOfIndex
        if right.isHole = false ∧ right.getInt = index then
          t.setRightChild parentOfIndex (.int left)
        else
          t.setLeftChild parentOfIndex (.int left)
    let t := t.setRightChild left (.int index)
    t.setParent index (.int left)
  else
    t

/-! ## Rebalancing after an insertion -/

/-- One round of the loop of `TaggedTree::InsertRebalance`; leaving it blackens the root. -/
def insertRebalanceStep (s : TaggedTree d α × Int) :
    TaggedTree d α × Int ⊕ TaggedTree d α :=
  let (t, index) := s
  if t.isValidIndex index ∧ t.getColor (t.getParent index) = .red then
    if t.isLeft (t.getParent index) then
      let bro := t.getLeftBrother (t.getParent index)
      if t.getColor bro = .red then
        let t := t.setColor (t.getParent index) .black
        let t := t.setColor bro .black
        let t := t.setColor (t.getParent (t.getParent index)) .red
        .inl (t, t.getParent (t.getParent index))
      else
        let (t, index) :=
          if t.isRight index then
            (t.leftRotate (t.getParent index), t.getParent index)
          else
            (t, index)
        let t := t.setColor (t.getParent index) .black
        let t := t.setColor (t.getParent (t.getParent index)) .red
        .inl (t.rightRotate (t.getParent (t.getParent index)), index)
    else
      let bro := t.getRightBrother (t.getParent index)
      if t.getColor bro = .red then
        let t := t.setColor (t.getParent index) .black
        let t := t.setColor bro .black
        let t := t.setColor (t.getParent (t.getParent index)) .red
        .inl (t, t.getParent (t.getParent index))
      else
        let (t, index) :=
          if t.isLeft index then
            (t.rightRotate (t.getParent index), t.getParent index)
          else
            (t, index)
        let t := t.setColor (t.getParent index) .black
        let t := t.setColor (t.getParent (t.getParent index)) .red
        .inl (t.leftRotate (t.getParent (t.getParent index)), index)
  else
    .inr (t.setColor t.getRootEntries .black)

/-- `TaggedTree::InsertRebalance`. -/
def insertRebalance (t : TaggedTree d α) (index : Int) : Option (TaggedTree d α) :=
  iter insertRebalanceStep t.fuel (t, index)

/-! ## Rebalancing before or after a deletion -/

/-- One round of the loop of `TaggedTree::DeleteRebalance`; leaving it blackens `index`. -/
def deleteRebalanceStep (s : TaggedTree d α × Int) :
    TaggedTree d α × Int ⊕ TaggedTree d α :=
  let (t, index) := s
  if index ≠ t.getRootEntries ∧ t.getColor index = .black then
    if t.isLeft index then
      let bro := t.getLeftBrother index
      let (t, bro) :=
        if t.getColor bro = .red then
          let t := t.setColor bro .black
          let t := t.setColor (t.getParent index) .red
          let t := t.leftRotate (t.getParent index)
          (t, t.getLeftBrother index)
        else
          (t, bro)
      if t.getColor (t.getLeftChildIndex bro) = .black ∧
          t.getColor (t.getRightChildIndex bro) = .black then
        let t := t.setColor bro .red
        .inl (t, t.getParent index)
      else
        let (t, bro) :=
          if t.getColor (t.getRightChildIndex bro) = .black then
            let t := t.setColor (t.getLeftChildIndex bro) .black
            let t := t.setColor bro .red
            let t := t.rightRotate bro
            (t, t.getLeftBrother index)
          else
            (t, bro)
        let t := t.setColor bro (t.getColor (t.getParent index))
        let t := t.setColor (t.getParent index) .black
        let t := t.setColor (t.getRightChildIndex bro) .black
        let t := t.leftRotate (t.getParent index)
        .inl (t, t.getRootEntries)
    else
      let bro := t.getRightBrother index
      let (t, bro) :=
        if t.getColor bro = .red then
          let t := t.setColor bro .black
          let t := t.setColor (t.getParent index) .red
          let t := t.rightRotate (t.getParent index)
          (t, t.getRightBrother index)
        else
          (t, bro)
      if t.getColor (t.getRightChildIndex bro) = .black ∧
          t.getColor (t.getLeftChildIndex bro) = .black then
        let t := t.setColor bro .red
        .inl (t, t.getParent index)
      else
        let (t, bro) :=
          if t.getColor (t.getLeftChildIndex bro) = .black then
            let t := t.setColor (t.getRightChildIndex bro) .black
            let t := t.setColor bro .red
            let t := t.leftRotate bro
            (t, t.getRightBrother index)
          else
            (t, bro)
        let t := t.setColor bro (t.getColor (t.getParent index))
        let t := t.setColor (t.getParent index) .black
        let t := t.setColor (t.getLeftChildIndex bro) .black
        let t := t.rightRotate (t.getParent index)
        .inl (t, t.getRootEntries)
  else
    .inr (t.setColor index .black)

/-- `TaggedTree::DeleteRebalance`. -/
def deleteRebalance (t : TaggedTree d α) (index : Int) : Option (TaggedTree d α) :=
  iter deleteRebalanceStep t.fuel (t, index)

/-! ## Renumbering -/

/-- One round of the breadth-first copy of `TaggedTree::AdjustTaggedTree`: `entries` is the queue of
    old entries, `index` the new entry written in this round, `child` the next free new entry. -/
def adjustStep (tree : TaggedTree d α) (s : TaggedTree d α × List Int × Int × Int) :
    TaggedTree d α × List Int × Int × Int ⊕ TaggedTree d α :=
  let (newTree, entries, index, child) := s
  match entries with
  | [] => .inr newTree
  | parent :: rest =>
      let left := tree.getLeftChild parent
      let (newTree, rest, child) :=
        if left.isHole then (newTree, rest, child)
        else
          ((newTree.setLeftChild index (.int child)).setParent child (.int index),
            rest ++ [left.getInt], child + 1)
      let right := tree.getRightChild parent
      let (newTree, rest, child) :=
        if right.isHole then (newTree, rest, child)
        else
          ((newTree.setRightChild index (.int child)).setParent child (.int index),
            rest ++ [right.getInt], child + 1)
      .inl (tree.copyEntry parent newTree index, rest, index + 1, child)

/-- `TaggedTree::AdjustTaggedTree`. -/
def adjustTaggedTree (tree : TaggedTree d α) (len : Int) : Option (TaggedTree d α) :=
  if tree.numberOfDeletedElements = 0 then
    some ⟨tree.toTaggedArray.extendArray len⟩
  else
    let newTree : TaggedTree d α := ⟨.newTaggedArray len⟩
    let newTree := newTree.setNumberOfElements tree.numberOfElements
    let newTree := newTree.setNumberOfDeletedElements 0
    let newTree := newTree.setRootEntries 0
    let newTree := newTree.setParent 0 (.int (-1))
    iter (adjustStep tree) tree.fuel (newTree, [tree.getRootEntries], 0, 1)

/-- `TaggedTree::ComputeCapacity`. -/
def computeCapacity (oldCapacity : Int) : Int :=
  let capacity := oldCapacity * 2 + 1
  if minCapacity < capacity then capacity else minCapacity

/-- What `GrowCapacity` gives back: a table, and whether it is another object than the argument. -/
structure Grown (d : TreeDerived) (α : Type) where
  table : TaggedTree d α
  fresh : Bool

/-- `TaggedTree::GrowCapacity`. -/
def growCapacity (tree : TaggedTree d α) : Option (Grown d α) :=
  let nof := tree.numberOfElements + tree.numberOfDeletedElements
  let oldCapacity := tree.capacity
  if nof + 1 ≤ oldCapacity then
    some ⟨tree, false⟩
  else
    let newCapacity := computeCapacity oldCapacity
    let length := 5 + newCapacity * d.entrySize
    (tree.adjustTaggedTree length).map (fun newTree => ⟨newTree.setCapacity newCapacity, true⟩)

/-- `TaggedTree::Shrink`. -/
def shrink (tree : TaggedTree d α) : Option (TaggedTree d α) :=
  let oldCapacity := tree.capacity
  if (oldCapacity + 1) / 4 ≤ tree.numberOfElements then
    some tree
  else
    let newCapacity := (oldCapacity - 1) / 2
    if newCapacity < minShrinkCapacity then
      some tree
    else
      let length := 5 + newCapacity * d.entrySize
      (tree.adjustTaggedTree length).map (·.setCapacity newCapacity)

/-! ## Searching -/

/-- `TaggedTree::EntryCompare`. A boolean answer `false` is told apart from equality by a second
    call with the arguments swapped. -/
def entryCompare (env : CompareEnv α) (tree : TaggedTree d α) (x y : JSTaggedValue α) :
    Completion ComparisonResult :=
  let fn := tree.getCompare
  if fn.isHole then
    env.ordinary x y
  else
    let ofResult (compareResult : Int) : Completion ComparisonResult :=
      .normal (if 0 < compareResult then .great else if compareResult < 0 then .less else .equal)
    match env.call fn x y with
    | .abrupt => .abrupt
    | .boolean true => ofResult (-1)
    | .boolean false =>
        match env.call fn y x with
        | .abrupt => .abrupt
        | .boolean true => ofResult 1
        | _ => ofResult 0
    | .int i => ofResult i
    | .number none => .abrupt
    | .number (some value) => ofResult value

/-- One round of `TaggedTree::FindEntry`; the key compared with is the one of `parentIndex`. -/
def findEntryStep (env : CompareEnv α) (tree : TaggedTree d α) (key : JSTaggedValue α)
    (parentIndex : Int) : Int ⊕ Completion Int :=
  let parentKey := tree.getKey parentIndex
  if parentKey.isHole then
    .inr (.normal (-1))
  else
    match tree.entryCompare env key parentKey with
    | .abrupt => .inr .abrupt
    | .normal .equal => .inr (.normal parentIndex)
    | .normal .less =>
        let child := tree.getLeftChild parentIndex
        if child.isHole then .inr (.normal (-1)) else .inl child.getInt
    | .normal _ =>
        let child := tree.getRightChild parentIndex
        if child.isHole then .inr (.normal (-1)) else .inl child.getInt

/-- `TaggedTree::FindEntry`. -/
def findEntry (env : CompareEnv α) (tree : TaggedTree d α) (key : JSTaggedValue α) :
    Option (Completion Int) :=
  iter (findEntryStep env tree key) tree.fuel tree.getRootEntries

/-- Where the search of `TaggedTree::Insert` ends: at an entry with the same key, or below an entry
    to the left or to the right. -/
inductive InsertPoint where
  | found (index : Int)
  | below (parentIndex : Int) (res : ComparisonResult)
  deriving DecidableEq, Repr

/-- One round of the search of `TaggedTree::Insert`: the comparator is the one of the old table
    `tree`, the entries are those of `newTree`; `res` is the last comparison. -/
def insertSearchStep (env : CompareEnv α) (tree newTree : TaggedTree d α) (key : JSTaggedValue α)
    (s : Int × JSTaggedValue α × ComparisonResult) :
    Int × JSTaggedValue α × ComparisonResult ⊕ Completion InsertPoint :=
  let (parentIndex, parentKey, res) := s
  if parentKey.isHole then
    .inr (.normal (.below parentIndex res))
  else
    match tree.entryCompare env key parentKey with
    | .abrupt => .inr .abrupt
    | .normal .equal => .inr (.normal (.found parentIndex))
    | .normal .less =>
        let child := newTree.getLeftChild parentIndex
        if child.isHole then .inr (.normal (.below parentIndex .less))
        else .inl (child.getInt, newTree.getKey child.getInt, .less)
    | .normal res =>
        let child := newTree.getRightChild parentIndex
        if child.isHole then .inr (.normal (.below parentIndex res))
        else .inl (child.getInt, newTree.getKey child.getInt, res)

/-- The end of `TaggedTree::Insert`: a new entry below `parentIndex`, and the rebalancing. -/
def insertBelow (newTree : TaggedTree d α) (parentIndex : Int) (res : ComparisonResult)
    (key value : JSTaggedValue α) : Option (TaggedTree d α) :=
  let entry := newTree.numberOfElements + newTree.numberOfDeletedElements
  let newTree :=
    if res ≠ .less then newTree.insertRightEntry parentIndex entry key value
    else newTree.insertLeftEntry parentIndex entry key value
  let newTree := newTree.setNumberOfElements (newTree.numberOfElements + 1)
  newTree.insertRebalance entry

/-- `TaggedTree::Insert`: the table in use after the call. Where the key is found the value is
    written to `newTree`, and `tree` is given back; the two are one table unless
    `GrowCapacity` made a new one. -/
def insert (env : CompareEnv α) (tree : TaggedTree d α) (key value : JSTaggedValue α) :
    Option (Completion (TaggedTree d α)) :=
  let parentKey := tree.getRootKey
  if parentKey.isHole then
    let tree := tree.setRoot 0 key value
    some (.normal (tree.setNumberOfElements (tree.numberOfElements + 1)))
  else do
    let ⟨newTree, fresh⟩ ← tree.growCapacity
    let point ← iter (insertSearchStep env tree newTree key) newTree.fuel
      (newTree.getRootEntries, parentKey, .undefined)
    match point with
    | .abrupt => some .abrupt
    | .normal (.found parentIndex) =>
        let newTree := newTree.setValue parentIndex value
        some (.normal (if fresh then tree else newTree))
    | .normal (.below parentIndex res) =>
        (newTree.insertBelow parentIndex res key value).map .normal

/-! ## Deletion -/

/-- `TaggedTree::GetMinimum`. -/
def getMinimum (t : TaggedTree d α) (entry : Int) : Option Int :=
  iter (fun entry =>
    let child := t.getLeftChild entry
    if child.isHole then .inr entry else .inl child.getInt) t.fuel entry

/-- `TaggedTree::GetMaximum`. -/
def getMaximum (t : TaggedTree d α) (entry : Int) : Option Int :=
  iter (fun entry =>
    let child := t.getRightChild entry
    if child.isHole then .inr entry else .inl child.getInt) t.fuel entry

/-- `TaggedTree::GetSuccessor`. -/
def getSuccessor (t : TaggedTree d α) (entry : Int) : Option Int :=
  let child := t.getRightChildIndex entry
  if 0 ≤ child then
    t.getMinimum child
  else
    iter (fun (entry, parent) =>
      if 0 ≤ parent ∧ t.getRightChildIndex parent = entry then .inl (parent, t.getParent parent)
      else .inr parent) t.fuel (entry, t.getParent entry)

/-- `TaggedTree::Transplant`. -/
def transplant (t : TaggedTree d α) (dst src : Int) : TaggedTree d α :=
  let parent := t.getParent dst
  let child : JSTaggedValue α := if src < 0 then .hole else .int src
  let t :=
    if parent < 0 then t.setRootEntries src
    else if t.isLeft dst then t.setLeftChild parent child
    else t.setRightChild parent child
  t.setParent src (.int parent)

/-- `TaggedTree::Remove`. -/
def remove (tree : TaggedTree d α) (entry : Int) : Option (TaggedTree d α) := do
  let (tree, successor) ←
    if (tree.getLeftChild entry).isHole = false ∧ (tree.getRightChild entry).isHole = false then do
      let successor ← tree.getSuccessor entry
      pure (tree.copyData entry successor, successor)
    else
      pure (tree, entry)
  let left := tree.getLeftChild successor
  let right := tree.getRightChild successor
  let child := if left.isHole then childEntry right else left.getInt
  let tree ←
    if child < 0 ∧ tree.getColor successor = .black then tree.deleteRebalance successor
    else pure tree
  let tree := tree.transplant successor child
  let tree ←
    if 0 ≤ child ∧ tree.getColor successor = .black then tree.deleteRebalance child
    else pure tree
  let tree := tree.removeEntry successor
  let tree := tree.setNumberOfElements (tree.numberOfElements - 1)
  pure (tree.setNumberOfDeletedElements (tree.numberOfDeletedElements + 1))

/-- `TaggedTreeMap::Delete` and `TaggedTreeSet::Delete`. -/
def delete (tree : TaggedTree d α) (entry : Int) : Option (TaggedTree d α) := do
  let tree ← tree.remove entry
  tree.shrink

/-! ## Reading a whole tree -/

/-- `TaggedTree::Transform`. -/
def transform (v : JSTaggedValue α) : JSTaggedValue α := if v.isHole then .undefined else v

/-- One round of the two nested loops of `TaggedTree::GetSortArray`: down to the left, or one entry
    from the stack and then to its right. -/
def sortStep (tree : TaggedTree d α) (s : TaggedArray α × Int × List Int × Int) :
    TaggedArray α × Int × List Int × Int ⊕ TaggedArray α :=
  let (sortArray, aid, entries, index) := s
  if 0 ≤ index then
    .inl (sortArray, aid, index :: entries, tree.getLeftChildIndex index)
  else
    match entries with
    | [] => .inr sortArray
    | top :: entries =>
        .inl (sortArray.set aid (.int top), aid + 1, entries, tree.getRightChildIndex top)

/-- `TaggedTree::GetSortArray`. -/
def getSortArray (tree : TaggedTree d α) : Option (TaggedArray α) :=
  iter (sortStep tree) (2 * tree.fuel)
    (.newTaggedArray tree.numberOfElements, 0, [], tree.getRootEntries)

/-- `TaggedTreeMap::HasValue`; `sameValue` is `JSTaggedValue::SameValue`. -/
def hasValue (sameValue : JSTaggedValue α → JSTaggedValue α → Bool) (tree : TaggedTree d α)
    (value : JSTaggedValue α) : Option Bool :=
  let root := tree.getRootEntries
  if root < 0 then some false
  else
    iter (fun entries =>
      match entries with
      | [] => .inr false
      | parent :: rest =>
          if sameValue (tree.getValue parent) value then .inr true
          else
            let left := tree.getLeftChildIndex parent
            let rest := if 0 ≤ left then rest ++ [left] else rest
            let right := tree.getRightChildIndex parent
            .inl (if 0 ≤ right then rest ++ [right] else rest)) tree.fuel [root]

/-- `TaggedTree::GetLowerKey`. -/
def getLowerKey (env : CompareEnv α) (tree : TaggedTree d α) (key : JSTaggedValue α) :
    Option (Completion (JSTaggedValue α)) :=
  iter (fun (parentIndex, resultIndex) =>
    if 0 ≤ parentIndex then
      match tree.entryCompare env key (tree.getKey parentIndex) with
      | .abrupt => .inr .abrupt
      | .normal .great => .inl (tree.getRightChildIndex parentIndex, parentIndex)
      | .normal _ => .inl (tree.getLeftChildIndex parentIndex, resultIndex)
    else .inr (.normal (transform (tree.getKey resultIndex)))) tree.fuel (tree.getRootEntries, -1)

/-- `TaggedTree::GetHigherKey`. -/
def getHigherKey (env : CompareEnv α) (tree : TaggedTree d α) (key : JSTaggedValue α) :
    Option (Completion (JSTaggedValue α)) :=
  iter (fun (parentIndex, resultIndex) =>
    if 0 ≤ parentIndex then
      match tree.entryCompare env key (tree.getKey parentIndex) with
      | .abrupt => .inr .abrupt
      | .normal .less => .inl (tree.getLeftChildIndex parentIndex, parentIndex)
      | .normal _ => .inl (tree.getRightChildIndex parentIndex, resultIndex)
    else .inr (.normal (transform (tree.getKey resultIndex)))) tree.fuel (tree.getRootEntries, -1)

/-- `TaggedTreeMap::GetFirstKey` and `TaggedTreeSet::GetFirstKey`. -/
def getFirstKey (tree : TaggedTree d α) : Option (JSTaggedValue α) :=
  (tree.getMinimum tree.getRootEntries).map fun entry => transform (tree.getKey entry)

/-- `TaggedTreeMap::GetLastKey` and `TaggedTreeSet::GetLastKey`. -/
def getLastKey (tree : TaggedTree d α) : Option (JSTaggedValue α) :=
  (tree.getMaximum tree.getRootEntries).map fun entry => transform (tree.getKey entry)

/-! ## Another map's entries -/

/-- One round of `TaggedTreeMap::SetAll`: the queue of entries of `src`, and the map. -/
def setAllStep (env : CompareEnv α) (src : TaggedTree .map α) (s : List Int × TaggedTree .map α) :
    List Int × TaggedTree .map α ⊕ Option (Completion (TaggedTree .map α)) :=
  let (entries, map) := s
  match entries with
  | [] => .inr (some (.normal map))
  | parent :: rest =>
      match map.insert env (src.getKey parent) (src.getValue parent) with
      | none => .inr none
      | some .abrupt => .inr (some .abrupt)
      | some (.normal map) =>
          let left := src.getLeftChildIndex parent
          let rest := if 0 ≤ left then rest ++ [left] else rest
          let right := src.getRightChildIndex parent
          .inl (if 0 ≤ right then rest ++ [right] else rest, map)

/-- `TaggedTreeMap::SetAll`. The root of `src` is queued without a look at whether it is an entry. -/
def setAll (env : CompareEnv α) (dst src : TaggedTree .map α) :
    Option (Completion (TaggedTree .map α)) :=
  (iter (setAllStep env src) (src.fuel + 1) ([src.getRootEntries], dst)).join

end TaggedTree

end ArkRuntime
