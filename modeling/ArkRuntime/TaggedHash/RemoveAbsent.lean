import ArkRuntime.TaggedHash.DeletePresent
import ArkRuntime.TaggedHash.TableModel

/-!
# `Remove` of a key that is not in the table

A list bin is read to its end. A tree bin is changed on the way down, and the call ends by reading a
field of a Hole.
-/

namespace ArkRuntime

open TaggedHashArray

variable {α : Type} {rt : KeyRuntime α} {hash : Int32} {key : JSTaggedValue α}

namespace TaggedHashArray

variable {table : TaggedHashArray α}

/-- No node has the key. -/
def Absent (rt : KeyRuntime α) (key : JSTaggedValue α) (table : TaggedHashArray α) : Prop :=
  ∀ node ∈ table.nodes, rt.sameValue key node.key = false

theorem mem_nodes_of_get {index : Nat} {node : TaggedNode α} (mem : node ∈ (table.get index).nodes) :
    node ∈ table.nodes := by
  unfold get at mem
  rw [List.getD_eq_getElem?_getD] at mem
  cases found : table.bins[index]? with
  | none =>
    rw [found] at mem
    cases mem
  | some bin =>
    rw [found] at mem
    exact List.mem_flatMap.mpr ⟨bin, List.mem_of_getElem? found, mem⟩

theorem removeLinked_absent (hash : Int32) {l : List (TaggedNode α)}
    (absent : ∀ node ∈ l, rt.sameValue key node.key = false) :
    removeLinked rt hash key l = none := by
  induction l with
  | nil => rfl
  | cons node next ih =>
    have other : TaggedHashArray.hasKey rt hash key node = false := by
      rw [TaggedHashArray.hasKey, absent node List.mem_cons_self, Bool.and_false]
    rw [removeLinked, other, ih fun x mem => absent x (List.mem_cons_of_mem _ mem)]
    rfl

/-- `RemoveNode` of an absent key finds nothing in a list and reads a field of a Hole in a tree. -/
theorem removeNode_absent (rt : KeyRuntime α) (hash : Int32) (absent : Absent rt key table) :
    removeNode rt table hash key =
      if (table.get (table.index hash)).isTree then .error .hole else .ok (table, .hole) := by
  have inBin : ∀ node ∈ (table.get (table.index hash)).nodes, rt.sameValue key node.key = false :=
    fun node mem => absent node (mem_nodes_of_get mem)
  cases found : table.get (table.index hash) with
  | hole =>
    simp only [removeNode, found]
    rfl
  | linked head next =>
    rw [found] at inBin
    have notFound := removeLinked_absent hash inBin
    simp only [Bin.nodes] at notFound
    simp only [removeNode, found, notFound]
    rfl
  | tree l red a r =>
    rw [found] at inBin
    have fault : RBTreeNode.delete rt hash key
        ((ColorTree.node l red a r).toList.length + 1) (.node l red a r) = .error .hole :=
      RBTreeNode.delete_absent _ _ (by simp [RBTreeNode.size, RBTreeNode.nodes]) inBin
    simp only [removeNode, found, fault, error_bind]
    rfl

end TaggedHashArray

/-- The bin of a key. -/
def TaggedHashArray.binOf (rt : KeyRuntime α) (table : TaggedHashArray α) (key : JSTaggedValue α) :
    Bin α := table.get (table.index (rt.hash key))

theorem JSAPIHashMap.remove_absent (rt : KeyRuntime α) (hashMap : JSAPIHashMap α)
    (absent : Absent rt key hashMap.table) : hashMap.remove rt key =
      if ¬key.isHole ∧ hashMap.size ≠ 0 ∧ (hashMap.table.binOf rt key).isTree then .error .hole
      else .ok (hashMap, .undefined) := by
  unfold JSAPIHashMap.remove
  by_cases isHole : key.isHole = true
  · simp [isHole]
  · by_cases empty : hashMap.size = 0
    · simp [isHole, empty]
    · have run := removeNode_absent rt (rt.hash key) absent
      have hole : (JSTaggedValue.hole : JSTaggedValue α).isHole = true := rfl
      by_cases tree : (hashMap.table.get (hashMap.table.index (rt.hash key))).isTree = true
      · simp [isHole, empty, run, tree, binOf]
      · simp [isHole, empty, run, tree, binOf, hole]

theorem JSAPIHashSet.remove_absent (rt : KeyRuntime α) (hashSet : JSAPIHashSet α)
    (isKey : key.isHole = false) (absent : Absent rt key hashSet.table) : hashSet.remove rt key =
      if hashSet.size ≠ 0 ∧ (hashSet.table.binOf rt key).isTree then .error .hole
      else .ok (.ok (hashSet, false)) := by
  unfold JSAPIHashSet.remove
  by_cases empty : hashSet.size = 0
  · simp [isKey, empty]
  · have run := removeNode_absent rt (rt.hash key) absent
    have hole : (JSTaggedValue.hole : JSTaggedValue α).isHole = true := rfl
    by_cases tree : (hashSet.table.get (hashSet.table.index (rt.hash key))).isTree = true
    · simp [isKey, empty, run, tree, binOf]
    · simp [isKey, empty, run, tree, binOf, hole]

/-- `Remove` of an absent key leaves a map or a set as it is exactly if the bin of the key is no tree
    or nothing is counted. -/
theorem remove_absent_iff (rt : KeyRuntime α) (key : JSTaggedValue α) (isKey : key.isHole = false) :
    (∀ hashMap : JSAPIHashMap α, Absent rt key hashMap.table →
      (hashMap.remove rt key = .ok (hashMap, .undefined) ↔
        hashMap.size = 0 ∨ (hashMap.table.binOf rt key).isTree = false)) ∧
    ∀ hashSet : JSAPIHashSet α, Absent rt key hashSet.table →
      (hashSet.remove rt key = .ok (.ok (hashSet, false)) ↔
        hashSet.size = 0 ∨ (hashSet.table.binOf rt key).isTree = false) := by
  constructor
  · intro hashMap absent
    rw [hashMap.remove_absent rt absent]
    by_cases empty : hashMap.size = 0 <;>
      cases tree : (hashMap.table.binOf rt key).isTree <;> simp [isKey, empty]
  · intro hashSet absent
    rw [hashSet.remove_absent rt isKey absent]
    by_cases empty : hashSet.size = 0 <;>
      cases tree : (hashSet.table.binOf rt key).isTree <;> simp [empty]

/-! ## Multiples of 16, which share a bin -/

/-- `Set` of each key with itself as value; errors stop the loop. -/
def JSAPIHashMap.setKeys (rt : KeyRuntime α) :
    JSAPIHashMap α → List (JSTaggedValue α) → Except TreeFault (JSAPIHashMap α)
  | hashMap, [] => .ok hashMap
  | hashMap, key :: keys => do
    let result ← hashMap.set rt key key
    match result with
    | .ok added => setKeys rt added keys
    | .error _ => return hashMap

theorem JSAPIHashMap.reachable_setKeys {hashMap added : JSAPIHashMap α}
    (reach : Reachable rt hashMap) (keys : List (JSTaggedValue α))
    (run : hashMap.setKeys rt keys = .ok added) : Reachable rt added := by
  induction keys generalizing hashMap with
  | nil => exact Except.ok.inj run ▸ reach
  | cons key keys ih =>
    rw [setKeys, bind_eq_ok] at run
    obtain ⟨result, called, rest⟩ := run
    cases result with
    | ok next => exact ih (reach.set called) rest
    | error e => exact Except.ok.inj rest ▸ reach

/-- The first `n` multiples of 16. -/
def sixteens (n : Nat) : List (JSTaggedValue Unit) := (List.range n).map fun i => .int (16 * i)

theorem exists_sixteens (n : Nat) (key : JSTaggedValue Unit) (isTree : Bool)
    (run : ((JSAPIHashMap.new.setKeys RBTreeNode.numbered (sixteens n)).map fun hashMap =>
      (hashMap.size != 0, hashMap.table.nodes.all fun node => node.key != key,
        (hashMap.table.binOf RBTreeNode.numbered key).isTree)) = .ok (true, true, isTree)) :
    ∃ hashMap : JSAPIHashMap Unit, hashMap.Reachable RBTreeNode.numbered ∧
      Absent RBTreeNode.numbered key hashMap.table ∧ hashMap.size ≠ 0 ∧
      (hashMap.table.binOf RBTreeNode.numbered key).isTree = isTree := by
  cases built : JSAPIHashMap.new.setKeys RBTreeNode.numbered (sixteens n) with
  | error e =>
    rw [built] at run
    cases run
  | ok hashMap =>
    rw [built] at run
    simp only [Except.map, Except.ok.injEq, Prod.mk.injEq, bne_iff_ne, List.all_eq_true] at run
    obtain ⟨counted, absent, bin⟩ := run
    refine ⟨hashMap, JSAPIHashMap.reachable_setKeys .new _ built, ?_, counted, bin⟩
    exact fun node mem => decide_eq_false (absent node mem).symm

theorem remove_absent_iff_sixteens : ∃ hashMap : JSAPIHashMap Unit,
    hashMap.Reachable RBTreeNode.numbered ∧ hashMap.size ≠ 0 ∧
      hashMap.remove RBTreeNode.numbered (.int 32) = .ok (hashMap, .undefined) := by
  obtain ⟨hashMap, reach, absent, counted, bin⟩ :=
    exists_sixteens 2 (.int 32) false (by decide +kernel)
  exact ⟨hashMap, reach, counted,
    ((remove_absent_iff RBTreeNode.numbered (.int 32) rfl).1 hashMap absent).mpr (.inr bin)⟩

/-- Eight keys of one bin make it a tree; `Remove` of a ninth reads a field of a Hole. -/
theorem remove_absent_reads_hole : ∃ hashMap : JSAPIHashMap Unit,
    hashMap.Reachable RBTreeNode.numbered ∧
      Absent RBTreeNode.numbered (.int 128) hashMap.table ∧
      hashMap.remove RBTreeNode.numbered (.int 128) = .error .hole := by
  obtain ⟨hashMap, reach, absent, counted, bin⟩ :=
    exists_sixteens 8 (.int 128) true (by decide +kernel)
  refine ⟨hashMap, reach, absent, ?_⟩
  rw [hashMap.remove_absent _ absent, if_pos ⟨Bool.false_ne_true, counted, bin⟩]

end ArkRuntime
