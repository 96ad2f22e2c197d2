import ArkRuntime.Misc.Loop
import ArkRuntime.Misc.TreeSearch
import ArkRuntime.TaggedArray

/-!
# The nodes of `tagged_node.cpp`

A bin of a hash table is a list of nodes or a left-leaning red-black tree. A tree is a `ColorTree`
whose empty subtrees are Holes; reading a field of a Hole is a fault. The calls that change a tree in
place return what stands in the place of its root.
-/

namespace ArkRuntime

/-- What the tables ask of keys: `JSTaggedValue::SameValue` and `TaggedNode::Hash`. `null` is the value
    that a set stores with its keys. -/
structure KeyRuntime (α : Type) where
  null : α
  sameValue : JSTaggedValue α → JSTaggedValue α → Bool
  hash : JSTaggedValue α → Int32
  refl : ∀ x, sameValue x x = true
  symm : ∀ x y, sameValue x y = true → sameValue y x = true
  trans : ∀ x y z, sameValue x y = true → sameValue y z = true → sameValue x z = true
  hole : ∀ v, sameValue .hole v = true → v = .hole

/-- The fields of `TaggedNode`. -/
structure TaggedNode (α : Type) where
  hash : Int32
  key : JSTaggedValue α
  value : JSTaggedValue α
  deriving DecidableEq, Repr

/-- The fields that `RBTreeNode` adds, but for its children and its colour. -/
structure TreeRecord (α : Type) extends TaggedNode α where
  count : UInt32
  deriving DecidableEq, Repr

abbrev RBTreeNode (α : Type) := ColorTree (TreeRecord α)

inductive TreeFault where
  /-- A field of a Hole is read. -/
  | hole
  | unfinished
  deriving DecidableEq, Repr

namespace RBTreeNode

variable {α : Type}

open ColorTree

/-- `IsHole`. -/
def isHole : RBTreeNode α → Bool
  | .nil => true
  | .node .. => false

/-- `Count`. -/
def count : RBTreeNode α → UInt32
  | .nil => 0
  | .node _ _ a _ => a.count

/-- `GetLeft`. -/
def getLeft : RBTreeNode α → Except TreeFault (RBTreeNode α)
  | .nil => .error .hole
  | .node l _ _ _ => .ok l

/-- `GetRight`. -/
def getRight : RBTreeNode α → Except TreeFault (RBTreeNode α)
  | .nil => .error .hole
  | .node _ _ _ r => .ok r

/-- `SetLeft`. -/
def setLeft (left : RBTreeNode α) : RBTreeNode α → Except TreeFault (RBTreeNode α)
  | .nil => .error .hole
  | .node _ red a r => .ok (.node left red a r)

/-- `SetRight`. -/
def setRight (right : RBTreeNode α) : RBTreeNode α → Except TreeFault (RBTreeNode α)
  | .nil => .error .hole
  | .node l red a _ => .ok (.node l red a right)

/-- The fields of a node. -/
def record : RBTreeNode α → Except TreeFault (TreeRecord α)
  | .nil => .error .hole
  | .node _ _ a _ => .ok a

/-- `SetIsRed`, of the other colour. -/
def flip : RBTreeNode α → RBTreeNode α
  | .nil => .nil
  | .node l red a r => .node l (!red) a r

/-- `Compare`. -/
def compare (rt : KeyRuntime α) (hash1 : Int32) (key1 : JSTaggedValue α) (hash2 : Int32)
    (key2 : JSTaggedValue α) : Int :=
  if rt.sameValue key1 key2 then 0 else if hash1 < hash2 then -1 else 1

/-- `RotateLeft`. -/
def rotateLeft : RBTreeNode α → Except TreeFault (RBTreeNode α)
  | .node l red a (.node rl _ ra rr) =>
    .ok (.node (.node l true { a with count := count l + count rl + 1 } rl) red
      { ra with count := a.count } rr)
  | _ => .error .hole

/-- `RotateRight`. -/
def rotateRight : RBTreeNode α → Except TreeFault (RBTreeNode α)
  | .node (.node ll _ la lr) red a r =>
    .ok (.node ll red { la with count := a.count }
      (.node lr true { a with count := count lr + count r + 1 } r))
  | _ => .error .hole

/-- `FlipColors`. -/
def flipColors : RBTreeNode α → Except TreeFault (RBTreeNode α)
  | .node (.node ll lred la lr) red a (.node rl rred ra rr) =>
    .ok (.node (.node ll (!lred) la lr) (!red) a (.node rl (!rred) ra rr))
  | _ => .error .hole

/-- The red right child of a node with a black left child becomes its parent. -/
def leanLeft (treeNode : RBTreeNode α) : Except TreeFault (RBTreeNode α) := do
  let left ← getLeft treeNode
  let right ← getRight treeNode
  if right.isRed && !left.isRed then rotateLeft treeNode else .ok treeNode

/-- Two red left children in a row are parted. -/
def partReds (treeNode : RBTreeNode α) : Except TreeFault (RBTreeNode α) := do
  let left ← getLeft treeNode
  match left with
  | .nil => .ok treeNode
  | .node leftLeft lred _ _ => if lred && leftLeft.isRed then rotateRight treeNode else .ok treeNode

/-- Two red children are made black. -/
def splitReds (treeNode : RBTreeNode α) : Except TreeFault (RBTreeNode α) := do
  let left ← getLeft treeNode
  let right ← getRight treeNode
  if left.isRed && right.isRed then flipColors treeNode else .ok treeNode

/-- `SetCount` of the counts of the children. -/
def recount : RBTreeNode α → Except TreeFault (RBTreeNode α)
  | .nil => .error .hole
  | .node l red a r => .ok (.node l red { a with count := count l + count r + 1 } r)

/-- `Balance`. -/
def balance (treeNode : RBTreeNode α) : Except TreeFault (RBTreeNode α) := do
  let treeNode ← leanLeft treeNode
  let treeNode ← partReds treeNode
  let treeNode ← splitReds treeNode
  recount treeNode

/-- `Set`, whose end is that of `Balance`. -/
def set (rt : KeyRuntime α) (hash : Int32) (key value : JSTaggedValue α) :
    RBTreeNode α → Except TreeFault (RBTreeNode α)
  | .nil => .ok (.node .nil true ⟨⟨hash, key, value⟩, 1⟩ .nil)
  | .node l red a r =>
    let cmp := compare rt hash key a.hash a.key
    if cmp < 0 then do
      let left ← set rt hash key value l
      balance (.node left red a r)
    else if cmp > 0 then do
      let right ← set rt hash key value r
      balance (.node l red a right)
    else balance (.node l red { a with value := value } r)

/-- `MoveRedLeft`. -/
def moveRedLeft (treeNode : RBTreeNode α) : Except TreeFault (RBTreeNode α) := do
  let treeNode ← flipColors treeNode
  let rightChild ← getRight treeNode
  let rightLeft ← getLeft rightChild
  if rightLeft.isRed then do
    let rightChild ← rotateRight rightChild
    let treeNode ← setRight rightChild treeNode
    let treeNode ← rotateLeft treeNode
    flipColors treeNode
  else .ok treeNode

/-- `MoveRedRight`. -/
def moveRedRight (treeNode : RBTreeNode α) : Except TreeFault (RBTreeNode α) := do
  let treeNode ← flipColors treeNode
  let leftChild ← getLeft treeNode
  let leftLeft ← getLeft leftChild
  if leftLeft.isRed then do
    let treeNode ← rotateRight treeNode
    flipColors treeNode
  else .ok treeNode

/-- `!IsRed(child) && !IsRed(child->GetLeft())`. -/
def isTwoNode (child : RBTreeNode α) : Except TreeFault Bool :=
  if child.isRed then .ok false
  else do
    let left ← getLeft child
    return !left.isRed

/-- `Min`. -/
def min : RBTreeNode α → Except TreeFault (TreeRecord α)
  | .nil => .error .hole
  | .node .nil _ a _ => .ok a
  | .node l _ _ _ => min l

/-- `DeleteMin`. The variable `leftChild` keeps the node that was the left child at the start: if
    `MoveRedLeft` puts another node in the place of `treeNode`, `leftChild` is not the left child of
    that node. -/
def deleteMin : Nat → RBTreeNode α → Except TreeFault (RBTreeNode α)
  | 0, _ => .error .unfinished
  | fuel + 1, treeNode => do
    let leftChild ← getLeft treeNode
    match leftChild with
    | .nil => return .nil
    | .node .. =>
      let twoNode ← isTwoNode leftChild
      if twoNode then do
        let treeNode ← moveRedLeft treeNode
        let left ← deleteMin fuel leftChild.flip
        let treeNode ← setLeft left treeNode
        balance treeNode
      else do
        let left ← deleteMin fuel leftChild
        let treeNode ← setLeft left treeNode
        balance treeNode

/-- The left child of `treeNode`, or its left child, is made red. -/
def redToLeft (treeNode : RBTreeNode α) : Except TreeFault (RBTreeNode α) := do
  let left ← getLeft treeNode
  let twoNode ← isTwoNode left
  if twoNode then moveRedLeft treeNode else .ok treeNode

/-- The same at the right child. -/
def redToRight (treeNode : RBTreeNode α) : Except TreeFault (RBTreeNode α) := do
  let right ← getRight treeNode
  let twoNode ← isTwoNode right
  if twoNode then moveRedRight treeNode else .ok treeNode

/-- A red left child becomes the parent of `treeNode`. -/
def leanRight (treeNode : RBTreeNode α) : Except TreeFault (RBTreeNode α) := do
  let left ← getLeft treeNode
  if left.isRed then rotateRight treeNode else .ok treeNode

/-- The rest of `Delete` when the key is not to the left; `deleteIn` is the call for the right
    child. -/
def deleteRight (rt : KeyRuntime α) (hash : Int32) (key : JSTaggedValue α) (fuel : Nat)
    (deleteIn : RBTreeNode α → Except TreeFault (RBTreeNode α × JSTaggedValue α))
    (treeNode : RBTreeNode α) : Except TreeFault (RBTreeNode α × JSTaggedValue α) := do
  let a ← record treeNode
  let right ← getRight treeNode
  if compare rt hash key a.hash a.key = 0 ∧ right.isHole then return (.nil, a.value)
  else do
    let treeNode ← redToRight treeNode
    let a ← record treeNode
    let rightChild ← getRight treeNode
    if compare rt hash key a.hash a.key = 0 then do
      let minNode ← min rightChild
      let right ← deleteMin fuel rightChild
      let left ← getLeft treeNode
      let treeNode ← balance (.node left treeNode.isRed ⟨minNode.toTaggedNode, a.count⟩ right)
      return (treeNode, a.value)
    else do
      let deleted ← deleteIn rightChild
      let treeNode ← setRight deleted.1 treeNode
      let treeNode ← balance treeNode
      return (treeNode, deleted.2)

/-- `Delete`, with `oldValue`. -/
def delete (rt : KeyRuntime α) (hash : Int32) (key : JSTaggedValue α) :
    Nat → RBTreeNode α → Except TreeFault (RBTreeNode α × JSTaggedValue α)
  | 0, _ => .error .unfinished
  | fuel + 1, treeNode => do
    let a ← record treeNode
    if compare rt hash key a.hash a.key < 0 then do
      let treeNode ← redToLeft treeNode
      let left ← getLeft treeNode
      let deleted ← delete rt hash key fuel left
      let treeNode ← setLeft deleted.1 treeNode
      let treeNode ← balance treeNode
      return (treeNode, deleted.2)
    else do
      let treeNode ← leanRight treeNode
      deleteRight rt hash key fuel (delete rt hash key fuel) treeNode

/-- `SetIsRed(false)` of the root. -/
def setBlack : RBTreeNode α → RBTreeNode α := ColorTree.blacken

/-- A call of `Set` on a whole tree, as `Treeing` and `SetVal` make it. -/
def setRoot (rt : KeyRuntime α) (root : RBTreeNode α) (node : TaggedNode α) :
    Except TreeFault (RBTreeNode α) := do
  let root ← set rt node.hash node.key node.value root
  return root.setBlack

/-- `LinkedNode::Treeing`. -/
def treeing (rt : KeyRuntime α) (head : List (TaggedNode α)) : Except TreeFault (RBTreeNode α) :=
  head.foldlM (setRoot rt) .nil

/-- The nodes in order, as `InOrderTraverse` visits them. -/
def nodes (root : RBTreeNode α) : List (TaggedNode α) := root.toList.map TreeRecord.toTaggedNode

end RBTreeNode

end ArkRuntime
