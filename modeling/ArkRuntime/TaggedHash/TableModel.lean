import ArkRuntime.ContainerError
import ArkRuntime.TaggedHash.NodeModel

/-!
# `TaggedHashArray`

An element of the array is a Hole, the head of a list of nodes or the root of a tree. Lists are
`LinkedNode`s with what their `Next` fields lead to; `Divide` and `NodeDisperse` part the nodes of a bin
by one bit of their hashes.
-/

namespace ArkRuntime

variable {α : Type}

/-- An element of a `TaggedHashArray`. -/
inductive Bin (α : Type) where
  | hole
  | linked (head : TaggedNode α) (next : List (TaggedNode α))
  | tree (left : RBTreeNode α) (red : Bool) (root : TreeRecord α) (right : RBTreeNode α)

namespace Bin

def ofList : List (TaggedNode α) → Bin α
  | [] => .hole
  | head :: next => .linked head next

def ofTree : RBTreeNode α → Bin α
  | .nil => .hole
  | .node l red a r => .tree l red a r

/-- `IsRBTreeNode`. -/
def isTree : Bin α → Bool
  | .tree .. => true
  | _ => false

def nodes : Bin α → List (TaggedNode α)
  | .hole => []
  | .linked head next => head :: next
  | .tree l red a r => RBTreeNode.nodes (.node l red a r)

end Bin

structure TaggedHashArray (α : Type) where
  bins : List (Bin α)

namespace TaggedHashArray

def TREEIFY_THRESHOLD : Nat := 8

def UNTREEIFY_THRESHOLD : UInt32 := 6

def DEFAULT_INITIAL_CAPACITY : Nat := 16

def MAXIMUM_CAPACITY : Nat := 2 ^ 30

/-- `Create`. -/
def create (numberOfElements : Nat) : TaggedHashArray α :=
  ⟨List.replicate numberOfElements .hole⟩

/-- `GetLength`. -/
def length (table : TaggedHashArray α) : Nat := table.bins.length

/-- `Get`. -/
def get (table : TaggedHashArray α) (index : Nat) : Bin α := table.bins.getD index .hole

/-- `Set`. -/
def set (table : TaggedHashArray α) (index : Nat) (bin : Bin α) : TaggedHashArray α :=
  ⟨table.bins.set index bin⟩

/-- `Clear`. -/
def clear (table : TaggedHashArray α) : TaggedHashArray α := ⟨table.bins.map fun _ => .hole⟩

/-- `(length - 1) & hash`. -/
def index (table : TaggedHashArray α) (hash : Int32) : Nat :=
  ((UInt32.ofNat table.length - 1) &&& hash.toUInt32).toNat

/-- The node with the hash and the key; a Hole is no key. -/
def hasKey (rt : KeyRuntime α) (hash : Int32) (key : JSTaggedValue α) (node : TaggedNode α) : Bool :=
  node.hash == hash && !key.isHole && rt.sameValue key node.key

/-! ## Looking up -/

/-- The nodes of a tree with the ways to them from the root. -/
def paths (way : List Side) : RBTreeNode α → ColorTree (List Side × TreeRecord α)
  | .nil => .nil
  | .node l red a r =>
    .node (paths (way ++ [.left]) l) red (way, a) (paths (way ++ [.right]) r)

/-- `GetTreeNode`, which takes the subtrees from a queue: the node with the way to it. -/
def getTreeNode (rt : KeyRuntime α) (root : RBTreeNode α) (hash : Int32) (key : JSTaggedValue α) :
    Option (List Side × TreeRecord α) :=
  (levelOrder (paths [] root)).find? fun visited =>
    visited.2.hash == hash && !visited.2.key.isHole && rt.sameValue key visited.2.key

/-- `GetNode`. -/
def getNode (rt : KeyRuntime α) (table : TaggedHashArray α) (hash : Int32)
    (key : JSTaggedValue α) : Option (TaggedNode α) :=
  match table.get (table.index hash) with
  | .hole => none
  | .linked head next => (head :: next).find? (hasKey rt hash key)
  | .tree l red a r => (getTreeNode rt (.node l red a r) hash key).map fun visited => visited.2.toTaggedNode

/-- `SetValue` on the first node with the key, if there is one. -/
def setLinked (rt : KeyRuntime α) (hash : Int32) (key value : JSTaggedValue α) :
    List (TaggedNode α) → Option (List (TaggedNode α))
  | [] => none
  | node :: next =>
    if hasKey rt hash key node then some ({ node with value := value } :: next)
    else (setLinked rt hash key value next).map (node :: ·)

/-- `SetValue` on the node at the end of a way. -/
def setValueAt (value : JSTaggedValue α) : List Side → RBTreeNode α → RBTreeNode α
  | _, .nil => .nil
  | [], .node l red a r => .node l red { a with value := value } r
  | .left :: way, .node l red a r => .node (setValueAt value way l) red a r
  | .right :: way, .node l red a r => .node l red a (setValueAt value way r)

/-- `SetValue` on the node that `GetNode` finds. -/
def replaceNode (rt : KeyRuntime α) (table : TaggedHashArray α) (hash : Int32)
    (key value : JSTaggedValue α) : Option (TaggedHashArray α) :=
  let index := table.index hash
  match table.get index with
  | .hole => none
  | .linked head next =>
    (setLinked rt hash key value (head :: next)).map fun l => table.set index (.ofList l)
  | .tree l red a r =>
    (getTreeNode rt (.node l red a r) hash key).map fun visited =>
      table.set index (.ofTree (setValueAt value visited.1 (.node l red a r)))

/-! ## Adding -/

/-- `TreeingBin`, which is called for lists. -/
def treeingBin (rt : KeyRuntime α) (table : TaggedHashArray α) (hash : Int32) :
    Except TreeFault (TaggedHashArray α) :=
  let index := table.index hash
  match table.get index with
  | .linked head next => do
    let root ← RBTreeNode.treeing rt (head :: next)
    return table.set index (.ofTree root)
  | _ => .ok table

/-- `SetVal`; the second result is whether a node was added. -/
def setVal (rt : KeyRuntime α) (table : TaggedHashArray α) (hash : Int32)
    (key value : JSTaggedValue α) : Except TreeFault (TaggedHashArray α × Bool) :=
  let index := table.index hash
  match table.get index with
  | .hole => .ok (table.set index (.linked ⟨hash, key, value⟩ []), true)
  | .linked head next =>
    match setLinked rt hash key value (head :: next) with
    | some l => .ok (table.set index (.ofList l), false)
    | none =>
      let added := table.set index (.linked head (next ++ [⟨hash, key, value⟩]))
      if TREEIFY_THRESHOLD - 1 ≤ next.length + 1 then do
        let treed ← treeingBin rt added hash
        return (treed, true)
      else .ok (added, true)
  | .tree l red a r => do
    let root ← RBTreeNode.setRoot rt (.node l red a r) ⟨hash, key, value⟩
    return (table.set index (.ofTree root), a.count != root.count)

/-! ## Growing -/

/-- Nodes that are put at the end of one of two lists. -/
def disperse (bit : Int32) (halves : List (TaggedNode α) × List (TaggedNode α))
    (node : TaggedNode α) : List (TaggedNode α) × List (TaggedNode α) :=
  if node.hash &&& bit = 0 then (halves.1 ++ [node], halves.2) else (halves.1, halves.2 ++ [node])

/-- `InOrderTraverse` with a bit. -/
def inOrderTraverse (bit : Int32) : RBTreeNode α → List (TaggedNode α) × List (TaggedNode α) →
    List (TaggedNode α) × List (TaggedNode α)
  | .nil, halves => halves
  | .node l _ a r, halves =>
    inOrderTraverse bit r (disperse bit (inOrderTraverse bit l halves) a.toTaggedNode)

/-- A half of a bin that is not empty goes to its place, as a tree if `count` is large. -/
def placeHalf (rt : KeyRuntime α) (table : TaggedHashArray α) (index count : Nat) :
    List (TaggedNode α) → Except TreeFault (TaggedHashArray α)
  | [] => .ok table
  | head :: next =>
    if TREEIFY_THRESHOLD ≤ count then do
      let root ← RBTreeNode.treeing rt (head :: next)
      return table.set index (.ofTree root)
    else .ok (table.set index (.linked head next))

/-- `RBTreeNode::Divide`. Both loops count in `loCount`. -/
def divide (rt : KeyRuntime α) (table : TaggedHashArray α) (root : RBTreeNode α)
    (index bit : Nat) : Except TreeFault (TaggedHashArray α) := do
  let halves := inOrderTraverse (Int32.ofNat bit) root ([], [])
  let loCount := halves.1.length + halves.2.length
  let hiCount := 0
  let table ← placeHalf rt table index loCount halves.1
  placeHalf rt table (index + bit) hiCount halves.2

/-- `NodeDisperse`. -/
def nodeDisperse (newTab : TaggedHashArray α) (nodes : List (TaggedNode α))
    (index oldCapacity : Nat) : TaggedHashArray α :=
  let halves := nodes.foldl (disperse (Int32.ofNat oldCapacity)) ([], [])
  let lower := if halves.1.isEmpty then newTab else newTab.set index (.ofList halves.1)
  if halves.2.isEmpty then lower else lower.set (index + oldCapacity) (.ofList halves.2)

/-- The round of `Resize` for one element of the old table. -/
def resizeBin (rt : KeyRuntime α) (newCapacity oldCapacity j : Nat) (newTab : TaggedHashArray α) :
    Bin α → Except TreeFault (TaggedHashArray α)
  | .hole => .ok newTab
  | .tree l red a r => divide rt newTab (.node l red a r) j oldCapacity
  | .linked node [] =>
    .ok (newTab.set (node.hash.toUInt32 &&& (UInt32.ofNat newCapacity - 1)).toNat (.linked node []))
  | .linked node (next :: rest) => .ok (nodeDisperse newTab (node :: next :: rest) j oldCapacity)

/-- The loop of `Resize` over the elements from `j` on. -/
def resizeBins (rt : KeyRuntime α) (newCapacity oldCapacity : Nat) :
    Nat → TaggedHashArray α → List (Bin α) → Except TreeFault (TaggedHashArray α)
  | _, newTab, [] => .ok newTab
  | j, newTab, bin :: bins => do
    let newTab ← resizeBin rt newCapacity oldCapacity j newTab bin
    resizeBins rt newCapacity oldCapacity (j + 1) newTab bins

/-- `Resize`. -/
def resize (rt : KeyRuntime α) (oldTab : TaggedHashArray α) (capacity : Nat) :
    Except TreeFault (TaggedHashArray α) :=
  let oldCapacity := oldTab.length
  if MAXIMUM_CAPACITY ≤ oldCapacity then .ok oldTab
  else
    let newCapacity := capacity <<< 1
    resizeBins rt newCapacity oldCapacity 0 (create newCapacity) oldTab.bins

/-! ## Removing -/

/-- The list without the first node with the key, and its value. -/
def removeLinked (rt : KeyRuntime α) (hash : Int32) (key : JSTaggedValue α) :
    List (TaggedNode α) → Option (List (TaggedNode α) × JSTaggedValue α)
  | [] => none
  | node :: next =>
    if hasKey rt hash key node then some (next, node.value)
    else (removeLinked rt hash key next).map fun removed => (node :: removed.1, removed.2)

/-- `RemoveNode`; a Hole is returned for no node. When `Delete` returns a Hole, the tree was one node
    and stands as it was. -/
def removeNode (rt : KeyRuntime α) (table : TaggedHashArray α) (hash : Int32)
    (key : JSTaggedValue α) : Except TreeFault (TaggedHashArray α × JSTaggedValue α) :=
  let index := table.index hash
  match table.get index with
  | .hole => .ok (table, .hole)
  | .linked head next =>
    match removeLinked rt hash key (head :: next) with
    | some removed => .ok (table.set index (.ofList removed.1), removed.2)
    | none => .ok (table, .hole)
  | .tree l red a r => do
    let root : RBTreeNode α := .node l red a r
    let deleted ← RBTreeNode.delete rt hash key (root.toList.length + 1) root
    match deleted.1 with
    | .nil => return (table, .hole)
    | .node l red a r => return (table.set index (.tree l red a r), deleted.2)

end TaggedHashArray

end ArkRuntime

/-!
## `JSAPIHashMap` and `JSAPIHashSet`

Both count the nodes of their table. A call that throws a business error returns it; a fault is a Hole
whose field is read.
-/

namespace ArkRuntime

open TaggedHashArray

variable {α : Type}

/-- The nodes of all bins. -/
def TaggedHashArray.nodes (table : TaggedHashArray α) : List (TaggedNode α) :=
  table.bins.flatMap Bin.nodes

/-- The end of `Set` and `Add`: a table that is full enough is replaced. -/
def TaggedHashArray.grow (rt : KeyRuntime α) (table : TaggedHashArray α) (nodeNum : UInt32) :
    Except TreeFault (TaggedHashArray α) :=
  let tableLength := table.length * 3 / 4
  if tableLength < nodeNum.toNat then resize rt table table.length else .ok table

/-- The end of `Remove`: a tree with few nodes becomes a list. -/
def TaggedHashArray.untreeify (table : TaggedHashArray α) (hash : Int32) : TaggedHashArray α :=
  let index := table.index hash
  match table.get index with
  | .tree l red a r =>
    if a.count < UNTREEIFY_THRESHOLD then
      table.set index (.ofList (RBTreeNode.nodes (.node l red a r)))
    else table
  | _ => table

/-- The error for a value that is no key. -/
def notKeyError (name condition received : String) : BusinessError where
  flag := .typeError
  message := "The type of \"" ++ name ++ "\" must be " ++ condition ++ ". Received value is: " ++ received

structure JSAPIHashMap (α : Type) where
  table : TaggedHashArray α
  size : UInt32

namespace JSAPIHashMap

def new : JSAPIHashMap α := ⟨create DEFAULT_INITIAL_CAPACITY, 0⟩

/-- `HasKey`. -/
def hasKey (rt : KeyRuntime α) (hashMap : JSAPIHashMap α) (key : JSTaggedValue α) : Bool :=
  (getNode rt hashMap.table (rt.hash key) key).isSome

/-- `Get`. -/
def get (rt : KeyRuntime α) (hashMap : JSAPIHashMap α) (key : JSTaggedValue α) : JSTaggedValue α :=
  match getNode rt hashMap.table (rt.hash key) key with
  | some node => node.value
  | none => .undefined

/-- `Replace`, without a result if the key is not in the map. -/
def replace (rt : KeyRuntime α) (hashMap : JSAPIHashMap α) (key newValue : JSTaggedValue α) :
    Option (JSAPIHashMap α) :=
  (replaceNode rt hashMap.table (rt.hash key) key newValue).map fun table => ⟨table, hashMap.size⟩

/-- `Set`. -/
def set (rt : KeyRuntime α) (hashMap : JSAPIHashMap α) (key value : JSTaggedValue α) :
    Except TreeFault (Except BusinessError (JSAPIHashMap α)) :=
  if key.isUndefined then .ok (.error (notKeyError "key" "Key of JS" "undefined"))
  else do
    let added ← setVal rt hashMap.table (rt.hash key) key value
    let nodeNum := if added.2 then hashMap.size + 1 else hashMap.size
    let table ← grow rt added.1 nodeNum
    return .ok ⟨table, nodeNum⟩

/-- `SetAll` for one node. An error of `Set` leaves the map as it was. -/
def setAllNode (rt : KeyRuntime α) (hashMap : JSAPIHashMap α) (node : TaggedNode α) :
    Except TreeFault (JSAPIHashMap α) :=
  match hashMap.replace rt node.key node.value with
  | some replaced => .ok replaced
  | none => do
    let result ← hashMap.set rt node.key node.value
    match result with
    | .ok added => return added
    | .error _ => return hashMap

/-- `SetAllRBTreeNode`. -/
def setAllRBTreeNode (rt : KeyRuntime α) :
    JSAPIHashMap α → RBTreeNode α → Except TreeFault (JSAPIHashMap α)
  | hashMap, .nil => .ok hashMap
  | hashMap, .node l _ a r => do
    let hashMap ← hashMap.setAllNode rt a.toTaggedNode
    let hashMap ← setAllRBTreeNode rt hashMap l
    setAllRBTreeNode rt hashMap r

/-- The round of `SetAll` for one bin of the source. -/
def setAllBin (rt : KeyRuntime α) (dst : JSAPIHashMap α) :
    Bin α → Except TreeFault (JSAPIHashMap α)
  | .hole => .ok dst
  | .linked head next => (head :: next).foldlM (setAllNode rt) dst
  | .tree l red a r => setAllRBTreeNode rt dst (.node l red a r)

/-- `SetAll`. -/
def setAll (rt : KeyRuntime α) (dst src : JSAPIHashMap α) : Except TreeFault (JSAPIHashMap α) :=
  src.table.bins.foldlM (setAllBin rt) dst

/-- `Clear`. -/
def clear (hashMap : JSAPIHashMap α) : JSAPIHashMap α :=
  if 0 < hashMap.size then ⟨hashMap.table.clear, 0⟩ else hashMap

/-- `Remove`. A node whose value is a Hole is removed and still counted. -/
def remove (rt : KeyRuntime α) (hashMap : JSAPIHashMap α) (key : JSTaggedValue α) :
    Except TreeFault (JSAPIHashMap α × JSTaggedValue α) :=
  if key.isHole then .ok (hashMap, .undefined)
  else if hashMap.size = 0 then .ok (hashMap, .undefined)
  else do
    let hash := rt.hash key
    let removed ← removeNode rt hashMap.table hash key
    if removed.2.isHole then return (⟨removed.1, hashMap.size⟩, .undefined)
    else return (⟨removed.1.untreeify hash, hashMap.size - 1⟩, removed.2)

/-- The maps that the calls can leave. -/
inductive Reachable (rt : KeyRuntime α) : JSAPIHashMap α → Prop
  | new : Reachable rt new
  | set {hashMap added : JSAPIHashMap α} {key value : JSTaggedValue α} : Reachable rt hashMap →
      hashMap.set rt key value = .ok (.ok added) → Reachable rt added
  | replace {hashMap replaced : JSAPIHashMap α} {key newValue : JSTaggedValue α} :
      Reachable rt hashMap → hashMap.replace rt key newValue = some replaced → Reachable rt replaced
  | setAll {dst src joined : JSAPIHashMap α} : Reachable rt dst → Reachable rt src →
      dst.setAll rt src = .ok joined → Reachable rt joined
  | clear {hashMap : JSAPIHashMap α} : Reachable rt hashMap → Reachable rt hashMap.clear
  | remove {hashMap rest : JSAPIHashMap α} {key value : JSTaggedValue α} : Reachable rt hashMap →
      hashMap.remove rt key = .ok (rest, value) → Reachable rt rest

end JSAPIHashMap

structure JSAPIHashSet (α : Type) where
  table : TaggedHashArray α
  size : UInt32

namespace JSAPIHashSet

/-- `Remove`. -/
def remove (rt : KeyRuntime α) (hashSet : JSAPIHashSet α) (key : JSTaggedValue α) :
    Except TreeFault (Except BusinessError (JSAPIHashSet α × Bool)) :=
  if key.isHole then .ok (.error (notKeyError "key" "not null" ""))
  else if hashSet.size = 0 then .ok (.ok (hashSet, false))
  else do
    let hash := rt.hash key
    let removed ← removeNode rt hashSet.table hash key
    if removed.2.isHole then return .ok (⟨removed.1, hashSet.size⟩, false)
    else return .ok (⟨removed.1.untreeify hash, hashSet.size - 1⟩, true)

end JSAPIHashSet

end ArkRuntime
