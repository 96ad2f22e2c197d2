import ArkRuntime.Queue.TaggedQueue
import ArkRuntime.TaggedHash.TableModel
import ArkRuntime.TaggedHash.Rearrange

/-!
# `GetCurrentNode`

A table is iterated by repeated calls: the nodes that follow the one that is returned go into a
queue, and the index of the bin moves on when the queue is empty. A reference to a node is a `Bin`,
which holds what the node leads to.
-/

namespace ArkRuntime

variable {α : Type}

inductive VisitFault where
  /-- The array of a queue does not fit into the heap. -/
  | outOfMemory
  /-- A value that is no node is read as one. -/
  | cast
  | unfinished
  deriving DecidableEq, Repr

namespace Bin

/-- `IsHole`. -/
def isHole : Bin α → Bool
  | .hole => true
  | _ => false

/-- The node that is referred to. -/
def node? : Bin α → Option (TaggedNode α)
  | .hole => none
  | .linked head _ => some head
  | .tree _ _ root _ => some root.toTaggedNode

end Bin

namespace TaggedHashArray

/-- `Push` of a child that is not a Hole. -/
def pushChild (maxHeapSize : Nat) (queue : TaggedQueue (Bin α)) (child : Bin α) :
    Except VisitFault (TaggedQueue (Bin α)) :=
  if child.isHole then .ok queue
  else
    match queue.push maxHeapSize (.ref child) with
    | some queue => .ok queue
    | none => .error .outOfMemory

/-- The children of a tree node, or the next node of a list, go into the queue. -/
def pushChildren (maxHeapSize : Nat) (queue : TaggedQueue (Bin α)) :
    Bin α → Except VisitFault (TaggedQueue (Bin α))
  | .hole => .error .cast
  | .linked _ next => pushChild maxHeapSize queue (.ofList next)
  | .tree l _ _ r => do
    let queue ← pushChild maxHeapSize queue (.ofTree l)
    pushChild maxHeapSize queue (.ofTree r)

/-- The end of `GetCurrentNode`, for `rootValue`. -/
def visit (maxHeapSize : Nat) (queue : TaggedQueue (Bin α)) (rootValue : Bin α) (index : Nat) :
    Except VisitFault (Bin α × TaggedQueue (Bin α) × Nat) := do
  let queue ← pushChildren maxHeapSize queue rootValue
  return (rootValue, queue, if queue.empty then index + 1 else index)

/-- `GetCurrentNode`: the node, the queue and the index. -/
def getCurrentNode (maxHeapSize : Nat) (queue : TaggedQueue (Bin α)) (tableArr : TaggedHashArray α)
    (index : Nat) : Except VisitFault (Bin α × TaggedQueue (Bin α) × Nat) :=
  if queue.empty then
    let rootValue := tableArr.get index
    if rootValue.isHole then .ok (rootValue, queue, index + 1)
    else visit maxHeapSize queue rootValue index
  else
    match queue.pop with
    | (.ref rootValue, queue) => visit maxHeapSize queue rootValue index
    | _ => .error .cast

/-- The loop `while (index < len)` of the callers: what the calls return. -/
def currentNodes (maxHeapSize : Nat) (tableArr : TaggedHashArray α) :
    Nat → TaggedQueue (Bin α) → Nat → Except VisitFault (List (Bin α))
  | 0, _, _ => .error .unfinished
  | fuel + 1, queue, index =>
    if index < tableArr.length then do
      let (node, queue, index) ← getCurrentNode maxHeapSize queue tableArr index
      let rest ← currentNodes maxHeapSize tableArr fuel queue index
      return node :: rest
    else .ok []

end TaggedHashArray

/-! ## What is in the queue -/

namespace Bin

/-- A child as a queue, empty for a Hole. -/
def queued (child : Bin α) : List (Bin α) := if child.isHole then [] else [child]

/-- What `GetCurrentNode` pushes for a node. -/
def children : Bin α → List (Bin α)
  | .hole => []
  | .linked _ next => queued (.ofList next)
  | .tree l _ _ r => queued (.ofTree l) ++ queued (.ofTree r)

theorem eq_hole {bin : Bin α} (hole : bin.isHole = true) : bin = .hole := by
  cases bin with
  | hole => rfl
  | linked head next => cases hole
  | tree l red a r => cases hole

theorem flatMap_queued (child : Bin α) : child.queued.flatMap nodes = child.nodes := by
  cases child <;> simp [queued, isHole, nodes]

theorem real_of_mem_queued {child bin : Bin α} (mem : bin ∈ child.queued) : bin.isHole = false := by
  rw [queued] at mem
  split at mem
  · cases mem
  · rename_i real
    rw [List.mem_singleton.mp mem]
    exact Bool.eq_false_iff.mpr real

theorem real_of_mem_children {root bin : Bin α} (mem : bin ∈ root.children) :
    bin.isHole = false := by
  cases root with
  | hole => cases mem
  | linked head next => exact real_of_mem_queued mem
  | tree l red a r => exact (List.mem_append.mp mem).elim real_of_mem_queued real_of_mem_queued

/-- The nodes of a bin are its root and those of the children. -/
theorem nodes_perm {root : Bin α} (real : root.isHole = false) :
    ∃ node, root.node? = some node ∧
      root.nodes.Perm (node :: root.children.flatMap nodes) := by
  cases root with
  | hole => cases real
  | linked head next =>
    refine ⟨head, rfl, ?_⟩
    rw [children, flatMap_queued]
    cases next <;> exact List.Perm.refl _
  | tree l red a r =>
    refine ⟨a.toTaggedNode, rfl, ?_⟩
    have subtree (t : RBTreeNode α) : (ofTree t).nodes = t.nodes := by cases t <;> rfl
    rw [children, List.flatMap_append, flatMap_queued, flatMap_queued, subtree, subtree]
    exact (List.Perm.of_eq RBTreeNode.nodes_node).trans List.perm_middle

end Bin

namespace TaggedHashArray

open TaggedQueue

variable {maxHeapSize n : Nat} {queue : TaggedQueue (Bin α)} {waiting : List (Bin α)}
variable {table : TaggedHashArray α} {index : Nat}

/-- A queue of at most `n` elements needs a longer array than the heap holds. -/
def QueueTooLarge (maxHeapSize n : Nat) : Prop := maxHeapSize < TaggedArray.computeSize (2 * n + 5)

theorem pushChild_spec (bounded : maxHeapSize ≤ maxHeapSizeLimit)
    (contains : Contains queue (waiting.map .ref)) (few : waiting.length ≤ n) (child : Bin α) :
    (∃ queue', pushChild maxHeapSize queue child = .ok queue' ∧
        Contains queue' ((waiting ++ child.queued).map .ref)) ∨
      (pushChild maxHeapSize queue child = .error .outOfMemory ∧ QueueTooLarge maxHeapSize n) := by
  rw [pushChild, Bin.queued]
  by_cases hole : child.isHole = true
  · rw [if_pos hole, if_pos hole, List.append_nil]
    exact .inl ⟨queue, rfl, contains⟩
  · rw [if_neg hole, if_neg hole, List.map_append]
    rcases push_spec bounded contains (.ref child) with ⟨queue', run, contains'⟩ | ⟨stuck, m, needed, large⟩
    · exact .inl ⟨queue', by rw [run], contains'⟩
    · have le := toNat_neededLength_le contains needed
      rw [List.length_map] at le
      refine .inr ⟨by rw [stuck], Nat.lt_of_lt_of_le large ?_⟩
      unfold TaggedArray.computeSize
      omega

theorem pushChildren_spec (bounded : maxHeapSize ≤ maxHeapSizeLimit)
    (contains : Contains queue (waiting.map .ref)) {root : Bin α} (real : root.isHole = false)
    (few : (waiting ++ root.children).length ≤ n) :
    (∃ queue', pushChildren maxHeapSize queue root = .ok queue' ∧
        Contains queue' ((waiting ++ root.children).map .ref)) ∨
      (pushChildren maxHeapSize queue root = .error .outOfMemory ∧ QueueTooLarge maxHeapSize n) := by
  cases root with
  | hole => cases real
  | linked head next =>
    rw [List.length_append] at few
    exact pushChild_spec bounded contains (by omega) (.ofList next)
  | tree l red a r =>
    rw [Bin.children] at few ⊢
    simp only [List.length_append] at few
    rw [pushChildren]
    rcases pushChild_spec (n := n) bounded contains (by omega) (.ofTree l) with
      ⟨queue', run, contains'⟩ | ⟨stuck, large⟩
    · rw [run, ok_bind, ← List.append_assoc]
      exact pushChild_spec bounded contains' (by rw [List.length_append]; omega) (.ofTree r)
    · rw [stuck]
      exact .inr ⟨rfl, large⟩

/-- The bins that have not been looked at: while nodes wait, the bin of the index has been. -/
def binsAhead (table : TaggedHashArray α) (waiting : List (Bin α)) (index : Nat) : List (Bin α) :=
  table.bins.drop (if waiting.isEmpty then index else index + 1)

/-- The nodes that the calls have still to return. -/
def nodesAhead (table : TaggedHashArray α) (waiting : List (Bin α)) (index : Nat) :
    List (TaggedNode α) := (waiting ++ binsAhead table waiting index).flatMap Bin.nodes

/-- The state between two calls. -/
structure Visiting (table : TaggedHashArray α) (queue : TaggedQueue (Bin α))
    (waiting : List (Bin α)) (index : Nat) : Prop where
  contains : Contains queue (waiting.map .ref)
  real : ∀ bin ∈ waiting, bin.isHole = false
  inside : waiting ≠ [] → index < table.length

theorem Visiting.empty_iff (visiting : Visiting table queue waiting index) :
    queue.empty = true ↔ waiting = [] := by
  rw [TaggedQueue.empty_iff visiting.contains, List.map_eq_nil_iff]

theorem length_le_nodes {bins : List (Bin α)} (real : ∀ bin ∈ bins, bin.isHole = false) :
    bins.length ≤ (bins.flatMap Bin.nodes).length := by
  induction bins with
  | nil => exact Nat.le_refl 0
  | cons bin bins ih =>
    obtain ⟨node, -, perm⟩ := Bin.nodes_perm (real bin List.mem_cons_self)
    have rest := ih fun b mem => real b (List.mem_cons_of_mem _ mem)
    rw [List.flatMap_cons, List.length_append, perm.length_eq, List.length_cons, List.length_cons]
    omega

/-- The index after a call whose queue then holds `waiting`. -/
theorem binsAhead_next (waiting : List (Bin α)) (index : Nat) :
    binsAhead table waiting (if waiting.isEmpty then index + 1 else index) =
      table.bins.drop (index + 1) := by
  cases waiting <;> rfl

/-- A call returns the node of `root`, which came from the queue or from the bin of the index; its
    children wait behind the other nodes. -/
theorem visit_spec (bounded : maxHeapSize ≤ maxHeapSizeLimit)
    (contains : Contains queue (waiting.map .ref)) (waitingReal : ∀ bin ∈ waiting, bin.isHole = false)
    {root : Bin α} (real : root.isHole = false) (inside : index < table.length)
    (few : ((root :: waiting).flatMap Bin.nodes).length ≤ n) :
    (∃ queue' waiting' index' node, visit maxHeapSize queue root index = .ok (root, queue', index') ∧
        Visiting table queue' waiting' index' ∧ root.node? = some node ∧ index ≤ index' ∧
        binsAhead table waiting' index' = table.bins.drop (index + 1) ∧
        ((root :: waiting).flatMap Bin.nodes).Perm (node :: waiting'.flatMap Bin.nodes)) ∨
      (visit maxHeapSize queue root index = .error .outOfMemory ∧ QueueTooLarge maxHeapSize n) := by
  obtain ⟨node, isRoot, perm⟩ := Bin.nodes_perm real
  have allReal : ∀ bin ∈ waiting ++ root.children, bin.isHole = false := by
    intro bin mem
    exact (List.mem_append.mp mem).elim (waitingReal bin) Bin.real_of_mem_children
  have moved : ((root :: waiting).flatMap Bin.nodes).Perm
      (node :: (waiting ++ root.children).flatMap Bin.nodes) := by
    rw [List.flatMap_cons, List.flatMap_append]
    exact (perm.append_right _).trans (List.perm_append_comm.cons node)
  have length := length_le_nodes allReal
  have total := moved.length_eq
  rw [List.length_cons] at total
  rw [visit]
  rcases pushChildren_spec (n := n) bounded contains real (by omega) with
    ⟨queue', run, contains'⟩ | ⟨stuck, large⟩
  · rw [run]
    have empty : queue'.empty = (waiting ++ root.children).isEmpty := by
      rw [Bool.eq_iff_iff, TaggedQueue.empty_iff contains', List.map_eq_nil_iff, List.isEmpty_iff]
    refine .inl ⟨queue', waiting ++ root.children, _, node, rfl, ⟨contains', allReal, ?_⟩, isRoot,
      ?_, ?_, moved⟩
    · intro waits
      rw [empty, if_neg (by rw [List.isEmpty_iff]; exact waits)]
      exact inside
    · split <;> omega
    · rw [empty]
      exact binsAhead_next _ _
  · rw [stuck]
    exact .inr ⟨rfl, large⟩

/-- What a call that returned `bin` leaves to be returned. -/
structure Returned (table : TaggedHashArray α) (waiting : List (Bin α)) (index : Nat) (bin : Bin α)
    (waiting' : List (Bin α)) (index' : Nat) : Prop where
  nodes : (nodesAhead table waiting index).Perm
    (bin.node?.toList ++ nodesAhead table waiting' index')
  holes : (binsAhead table waiting index).countP Bin.isHole =
    (if bin.isHole then 1 else 0) + (binsAhead table waiting' index').countP Bin.isHole
  forward : index ≤ index'
  passed : bin.isHole = true → index < index'

theorem isHole_eq_false_of_node {bin : Bin α} {node : TaggedNode α} (isRoot : bin.node? = some node) :
    bin.isHole = false := by
  cases bin with
  | hole => cases isRoot
  | linked head next => rfl
  | tree l red a r => rfl

theorem drop_eq (inside : index < table.length) :
    table.bins.drop index = table.get index :: table.bins.drop (index + 1) := by
  unfold get length at *
  rw [List.drop_eq_getElem_cons inside, List.getD_eq_getElem?_getD, List.getElem?_eq_getElem inside]
  rfl

/-- One call. -/
theorem getCurrentNode_spec (bounded : maxHeapSize ≤ maxHeapSizeLimit)
    (visiting : Visiting table queue waiting index) (inside : index < table.length)
    (few : (nodesAhead table waiting index).length ≤ n) :
    (∃ bin queue' waiting' index', getCurrentNode maxHeapSize queue table index =
        .ok (bin, queue', index') ∧ Visiting table queue' waiting' index' ∧
        Returned table waiting index bin waiting' index') ∨
      (getCurrentNode maxHeapSize queue table index = .error .outOfMemory ∧
        QueueTooLarge maxHeapSize n) := by
  rw [getCurrentNode]
  cases waiting with
  | nil =>
    rw [if_pos (visiting.empty_iff.mpr rfl)]
    have ahead : binsAhead table [] index = table.get index :: table.bins.drop (index + 1) :=
      drop_eq inside
    by_cases hole : (table.get index).isHole = true
    · simp only [hole, if_true]
      rw [Bin.eq_hole hole]
      refine .inl ⟨.hole, queue, [], index + 1, rfl, ⟨visiting.contains, nofun, nofun⟩, ?_⟩
      have next : binsAhead table [] (index + 1) = table.bins.drop (index + 1) := rfl
      rw [Bin.eq_hole hole] at ahead
      refine ⟨?_, ?_, Nat.le_succ index, fun _ => Nat.lt_succ_self index⟩
      · rw [nodesAhead, nodesAhead, ahead, next]
        exact List.Perm.refl _
      · rw [ahead, next, List.countP_cons, Nat.add_comm]
    · simp only [hole, if_false]
      have real : (table.get index).isHole = false := Bool.eq_false_iff.mpr hole
      have size : (nodesAhead table [] index).length =
          ([table.get index].flatMap Bin.nodes).length +
            ((table.bins.drop (index + 1)).flatMap Bin.nodes).length := by
        rw [nodesAhead, ahead, ← List.length_append, ← List.flatMap_append]
        rfl
      rcases visit_spec (n := n) bounded visiting.contains visiting.real real inside (by omega) with
        ⟨queue', waiting', index', node, run, visiting', isRoot, forward, ahead', perm⟩ | stuck
      · refine .inl ⟨_, queue', waiting', index', run, visiting', ?_, ?_, forward, ?_⟩
        · rw [isRoot, nodesAhead, nodesAhead, ahead, ahead', List.nil_append,
            List.flatMap_append, List.flatMap_cons]
          rw [List.flatMap_singleton] at perm
          exact perm.append_right _
        · rw [ahead, ahead', List.countP_cons, real, Nat.add_comm]
        · intro isHole
          rw [real] at isHole
          cases isHole
      · exact .inr stuck
  | cons root waiting =>
    have notEmpty : ¬queue.empty = true := by
      rw [visiting.empty_iff]
      exact List.cons_ne_nil root waiting
    obtain ⟨popped, contains⟩ := pop_spec visiting.contains
    rw [if_neg notEmpty]
    cases taken : queue.pop with
    | mk value rest =>
      rw [taken] at popped contains
      obtain rfl : value = .ref root := popped
      simp only
      have ahead : binsAhead table (root :: waiting) index = table.bins.drop (index + 1) := rfl
      have size : (nodesAhead table (root :: waiting) index).length =
          ((root :: waiting).flatMap Bin.nodes).length +
            ((table.bins.drop (index + 1)).flatMap Bin.nodes).length := by
        rw [nodesAhead, ahead, ← List.length_append, ← List.flatMap_append]
      rcases visit_spec (n := n) bounded contains
        (fun bin mem => visiting.real bin (List.mem_cons_of_mem _ mem))
        (visiting.real root List.mem_cons_self) inside (by omega) with
        ⟨queue', waiting', index', node, run, visiting', isRoot, forward, ahead', perm⟩ | stuck
      · refine .inl ⟨_, queue', waiting', index', run, visiting', ?_, ?_, forward, ?_⟩
        · rw [isRoot, nodesAhead, nodesAhead, ahead, ahead', List.flatMap_append, List.flatMap_append]
          exact perm.append_right _
        · rw [ahead, ahead', isHole_eq_false_of_node isRoot]
          exact (Nat.zero_add _).symm
        · intro isHole
          rw [isHole_eq_false_of_node isRoot] at isHole
          cases isHole
      · exact .inr stuck

/-- The calls from any state on return the nodes that are ahead. -/
theorem currentNodes_spec (bounded : maxHeapSize ≤ maxHeapSizeLimit) (fuel : Nat)
    (visiting : Visiting table queue waiting index) (few : (nodesAhead table waiting index).length ≤ n)
    (enough : (nodesAhead table waiting index).length + (table.length - index) < fuel) :
    (∃ returned, currentNodes maxHeapSize table fuel queue index = .ok returned ∧
        (returned.filterMap Bin.node?).Perm (nodesAhead table waiting index) ∧
        returned.countP Bin.isHole = (binsAhead table waiting index).countP Bin.isHole) ∨
      (currentNodes maxHeapSize table fuel queue index = .error .outOfMemory ∧
        QueueTooLarge maxHeapSize n) := by
  induction fuel generalizing queue waiting index with
  | zero => exact absurd enough (Nat.not_lt_zero _)
  | succ fuel ih =>
    rw [currentNodes]
    by_cases inside : index < table.length
    · rw [if_pos inside]
      rcases getCurrentNode_spec bounded visiting inside few with
        ⟨bin, queue', waiting', index', run, visiting', returned⟩ | ⟨stuck, large⟩
      · have total := returned.nodes.length_eq
        rw [List.length_append] at total
        have forward := returned.forward
        have less : (nodesAhead table waiting' index').length + (table.length - index') < fuel := by
          cases found : bin.node? with
          | none =>
            have isHole : bin.isHole = true := by
              cases bin with
              | hole => rfl
              | linked head next => cases found
              | tree l red a r => cases found
            have passed := returned.passed isHole
            omega
          | some node =>
            rw [found, Option.toList_some, List.length_singleton] at total
            omega
        rw [run]
        rcases ih visiting' (by omega) less with ⟨rest, runs, perm, holes⟩ | ⟨stuck, large⟩
        · refine .inl ⟨bin :: rest, ?_, ?_, ?_⟩
          · simp only [ok_bind, runs]
            rfl
          · have nodes : (bin :: rest).filterMap Bin.node? =
                bin.node?.toList ++ rest.filterMap Bin.node? := by
              rw [List.filterMap_cons]
              cases bin.node? <;> rfl
            rw [nodes]
            exact (perm.append_left _).trans returned.nodes.symm
          · rw [returned.holes, ← holes, List.countP_cons, Nat.add_comm]
        · refine .inr ⟨?_, large⟩
          simp only [ok_bind, stuck]
          rfl
      · rw [stuck]
        exact .inr ⟨rfl, large⟩
    · have drained : waiting = [] := by
        by_contra waits
        exact inside (visiting.inside waits)
      subst drained
      have past : binsAhead table [] index = [] := List.drop_eq_nil_of_le (Nat.le_of_not_lt inside)
      refine .inl ⟨[], if_neg inside, ?_, ?_⟩
      · rw [nodesAhead, past]
        exact List.Perm.refl _
      · rw [past]

/-- The calls from an empty queue and the index 0 on return every node of the table once, and a Hole
    for every empty bin, unless a queue of its nodes does not fit into the heap. -/
theorem getCurrentNode_visits (maxHeapSize : Nat) (bounded : maxHeapSize ≤ maxHeapSizeLimit)
    (table : TaggedHashArray α) (queue : TaggedQueue (Bin α)) (empty : Contains queue []) :
    (∃ fuel returned, currentNodes maxHeapSize table fuel queue 0 = .ok returned ∧
        (returned.filterMap Bin.node?).Perm table.nodes ∧
        returned.countP Bin.isHole = table.bins.countP Bin.isHole) ∨
      (∃ fuel, currentNodes maxHeapSize table fuel queue 0 = .error .outOfMemory) ∧
        QueueTooLarge maxHeapSize table.nodes.length := by
  have visiting : Visiting table queue [] 0 := ⟨empty, nofun, nofun⟩
  rcases currentNodes_spec bounded (table.nodes.length + table.length + 1) visiting (Nat.le_refl _)
    (Nat.lt_succ_self _) with ⟨returned, run, perm, holes⟩ | ⟨stuck, large⟩
  · exact .inl ⟨_, returned, run, perm, holes⟩
  · exact .inr ⟨⟨_, stuck⟩, large⟩

/-- A node with an integer as hash, key and value. -/
def intNode (i : Int) : TaggedNode Unit := ⟨Int32.ofInt i, .int i, .int i⟩

/-- An empty bin, a list and a tree. -/
def mixedTable : TaggedHashArray Unit :=
  ⟨[.hole, .linked (intNode 1) [intNode 5, intNode 9], .hole,
    .tree (.node .nil true ⟨intNode 3, 1⟩ .nil) false ⟨intNode 7, 3⟩
      (.node .nil false ⟨intNode 11, 1⟩ .nil)]⟩

theorem getCurrentNode_visits_mixed : maxHeapSizeLimit ≤ maxHeapSizeLimit ∧
    Contains (emptyTaggedQueue : TaggedQueue (Bin Unit)) [] ∧
    ∃ fuel returned, currentNodes maxHeapSizeLimit mixedTable fuel emptyTaggedQueue 0 = .ok returned ∧
      (returned.filterMap Bin.node?).Perm mixedTable.nodes ∧
      returned.countP Bin.isHole = mixedTable.bins.countP Bin.isHole := by
  refine ⟨Nat.le_refl _, contains_empty, ?_⟩
  refine (getCurrentNode_visits maxHeapSizeLimit (Nat.le_refl _) mixedTable emptyTaggedQueue
    contains_empty).resolve_right fun stuck => ?_
  exact absurd stuck.2 (by unfold QueueTooLarge; decide)

end TaggedHashArray

end ArkRuntime
