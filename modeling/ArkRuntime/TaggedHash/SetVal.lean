import ArkRuntime.TaggedHash.Storing
import Mathlib.Data.List.Find

/-!
# `SetVal`, `Replace` and `GetNode` on a table

Every node stands in the bin of its hash, no key comes twice, and the trees are those that `Set` builds.
The calls keep this, and find the node of a key wherever it stands in its bin; only a `SetVal` that
descends past the node of its key breaks it.
-/

namespace ArkRuntime

open TaggedHashArray

variable {α : Type} {rt : KeyRuntime α}

/-! ## Bins -/

/-- A bin that is a tree is one of `BinTree`. -/
def Bin.Kept : Bin α → Prop
  | .tree l red a r => RBTreeNode.BinTree (.node l red a r)
  | _ => True

theorem Bin.kept_ofTree {t : RBTreeNode α} (tree : t.BinTree) : (Bin.ofTree t).Kept := by
  cases t with
  | nil => trivial
  | node l red a r => exact tree

theorem Bin.kept_ofList (l : List (TaggedNode α)) : (Bin.ofList l).Kept := by
  cases l <;> trivial

namespace TaggedHashArray

variable {table newTab t : TaggedHashArray α} {key value : JSTaggedValue α} {i : Nat}

theorem set_trees {bin : Bin α} (trees : ∀ i, (table.get i).Kept) (tree : bin.Kept) (i j : Nat) :
    ((table.set i bin).get j).Kept := by
  rw [get_set]
  split
  · exact tree
  · exact trees j

/-! ### `Resize` keeps the trees -/

theorem placeHalf_trees {count : Nat} {half : List (TaggedNode α)}
    (run : placeHalf rt table i count half = .ok t) (trees : ∀ i, (table.get i).Kept) :
    ∀ i, (t.get i).Kept := by
  cases half with
  | nil =>
    cases run
    exact trees
  | cons head next =>
    rw [placeHalf] at run
    split at run
    · obtain ⟨root, built, tree⟩ := RBTreeNode.treeing_tree rt (head :: next)
      rw [built] at run
      cases run
      exact set_trees trees (Bin.kept_ofTree tree) i
    · cases run
      exact set_trees trees (Bin.kept_ofList (head :: next)) i

theorem resizeBin_trees {newCapacity oldCapacity j : Nat} {bin : Bin α}
    (run : resizeBin rt newCapacity oldCapacity j newTab bin = .ok t)
    (trees : ∀ i, (newTab.get i).Kept) : ∀ i, (t.get i).Kept := by
  cases bin with
  | hole =>
    cases run
    exact trees
  | tree l red a r =>
    rw [resizeBin, divide] at run
    obtain ⟨lower, first, second⟩ := (bind_eq_ok ..).mp run
    exact placeHalf_trees second (placeHalf_trees first trees)
  | linked head next =>
    cases next with
    | nil =>
      cases run
      exact set_trees trees (Bin.kept_ofList [head]) _
    | cons node rest =>
      cases run
      have placed (table : TaggedHashArray α) (i : Nat) (half : List (TaggedNode α))
          (trees : ∀ i, (table.get i).Kept) :
          ∀ j, ((if half.isEmpty then table else table.set i (.ofList half)).get j).Kept := by
        split
        · exact trees
        · exact set_trees trees (Bin.kept_ofList half) i
      exact placed _ _ _ (placed _ _ _ trees)

theorem resizeBins_trees {newCapacity oldCapacity j : Nat} {bins : List (Bin α)}
    (run : resizeBins rt newCapacity oldCapacity j newTab bins = .ok t)
    (trees : ∀ i, (newTab.get i).Kept) : ∀ i, (t.get i).Kept := by
  induction bins generalizing j newTab with
  | nil =>
    cases run
    exact trees
  | cons bin bins ih =>
    obtain ⟨next, first, rest⟩ := (bind_eq_ok ..).mp run
    exact ih rest (resizeBin_trees first trees)

theorem resize_trees {capacity : Nat} (run : resize rt table capacity = .ok t)
    (trees : ∀ i, (table.get i).Kept) : ∀ i, (t.get i).Kept := by
  rw [resize] at run
  split at run
  · cases run
    exact trees
  · refine resizeBins_trees run fun i => ?_
    rw [get_create]
    trivial

/-! ## Tables -/

/-- What runs keep of a table, whatever the hashes are. -/
structure Kept (rt : KeyRuntime α) (table : TaggedHashArray α) : Prop where
  length : ∃ k ≤ 30, table.length = 2 ^ k
  placed : Placed table
  hashed : ∀ node ∈ table.nodes, node.hash = rt.hash node.key
  distinct : DistinctKeys rt table.nodes
  trees : ∀ i, (table.get i).Kept

theorem mem_nodes {node : TaggedNode α} : node ∈ table.nodes ↔ ∃ i, node ∈ (table.get i).nodes := by
  refine ⟨fun mem => ?_, fun ⟨i, mem⟩ => mem_nodes_of_get mem⟩
  rw [nodes_eq] at mem
  obtain ⟨i, -, mem⟩ := List.mem_flatMap.mp mem
  exact ⟨i, mem⟩

theorem index_set (table : TaggedHashArray α) (i : Nat) (bin : Bin α) (hash : Int32) :
    (table.set i bin).index hash = table.index hash := by
  rw [index, index, length_set]

/-- The nodes beside those of a bin. -/
theorem nodes_set (inside : i < table.length) : ∃ rest, table.nodes.Perm ((table.get i).nodes ++ rest) ∧
    ∀ bin : Bin α, (table.set i bin).nodes.Perm (bin.nodes ++ rest) := by
  obtain ⟨bins⟩ := table
  have parts (bin : Bin α) : (set ⟨bins⟩ i bin).nodes =
      (bins.take i).flatMap Bin.nodes ++ (bin.nodes ++ (bins.drop (i + 1)).flatMap Bin.nodes) := by
    have split : bins.set i bin = bins.take i ++ bin :: bins.drop (i + 1) :=
      List.set_eq_take_append_cons_drop.trans (if_pos inside)
    rw [nodes, set, split, List.flatMap_append, List.flatMap_cons]
  refine ⟨(bins.take i).flatMap Bin.nodes ++ (bins.drop (i + 1)).flatMap Bin.nodes, ?_, fun bin => ?_⟩
  · have same := parts (get ⟨bins⟩ i)
    rw [set_get] at same
    rw [same]
    exact List.perm_append_comm_assoc ..
  · rw [parts]
    exact List.perm_append_comm_assoc ..

namespace Kept

variable (kept : Kept rt table) (assigned : ∀ x y, rt.sameValue x y = true → rt.hash x = rt.hash y)

include kept

theorem index_lt (hash : Int32) : table.index hash < table.length := by
  obtain ⟨k, le, length⟩ := kept.length
  rw [index_eq length (by omega), length]
  exact Nat.mod_lt _ (Nat.two_pow_pos k)

include assigned

theorem hashedAs (key : JSTaggedValue α) : RBTreeNode.HashedAs rt (rt.hash key) key table.nodes :=
  fun node mem same => (kept.hashed node mem).trans (assigned _ _ same).symm

/-- A key that is not in its bin is nowhere. -/
theorem absent_of_bin (key : JSTaggedValue α)
    (absent : ∀ node ∈ (table.binOf rt key).nodes, rt.sameValue key node.key = false) :
    ∀ node ∈ table.nodes, rt.sameValue key node.key = false := by
  intro node mem
  by_contra same
  have same := Bool.eq_true_of_not_eq_false same
  obtain ⟨i, inBin⟩ := mem_nodes.mp mem
  have place := kept.placed i node inBin
  rw [kept.hashedAs assigned key node mem same] at place
  have other := absent node (by rwa [binOf, place])
  rw [same] at other
  cases other

/-- A change of the bin of a key is a change of the table. -/
theorem set_bin {bin : Bin α} {added : Bool} (tree : bin.Kept)
    (stored : Put rt key value (table.binOf rt key).nodes bin.nodes added) :
    Kept rt (table.set (table.index (rt.hash key)) bin) ∧
      Put rt key value table.nodes (table.set (table.index (rt.hash key)) bin).nodes added := by
  obtain ⟨rest, parts, parts'⟩ := nodes_set (kept.index_lt (rt.hash key))
  have whole : Put rt key value table.nodes
      (table.set (table.index (rt.hash key)) bin).nodes added := by
    refine (stored.append rest fun new node mem => ?_).perm parts (parts' bin)
    subst new
    cases stored with
    | added absent after =>
      exact kept.absent_of_bin assigned key absent node
        (parts.symm.subset (List.mem_append_right _ mem))
  refine ⟨⟨?_, ?_, ?_, whole.distinct kept.distinct, set_trees kept.trees tree _⟩, whole⟩
  · rw [length_set]
    exact kept.length
  · intro i node mem
    rw [index_set]
    rw [get_set] at mem
    split at mem
    · rename_i here
      obtain ⟨rfl, -⟩ := here
      rcases stored.origin mem with ⟨old, memOld, hashEq, -⟩ | ⟨hashEq, -⟩
      · rw [hashEq]
        exact kept.placed _ old memOld
      · rw [hashEq]
    · exact kept.placed i node mem
  · intro node mem
    rcases whole.origin mem with ⟨old, memOld, hashEq, keyEq⟩ | ⟨hashEq, keyEq⟩
    · rw [hashEq, keyEq]
      exact kept.hashed old memOld
    · rw [hashEq, keyEq]

end Kept

/-! ### One bin -/

/-- The node of the key stands in a tree on the left of a node with the same hash. -/
def isLeftOfEqual (rt : KeyRuntime α) (table : TaggedHashArray α) (key : JSTaggedValue α) : Bool :=
  match table.binOf rt key with
  | .tree l red a r => RBTreeNode.isLeftOfEqual rt (rt.hash key) key (.node l red a r)
  | _ => false

theorem hasKey_eq {l : List (TaggedNode α)} (hashed : RBTreeNode.HashedAs rt (rt.hash key) key l)
    (isKey : key.isHole = false) {node : TaggedNode α} (mem : node ∈ l) :
    hasKey rt (rt.hash key) key node = rt.sameValue key node.key := by
  rw [hasKey, isKey]
  cases same : rt.sameValue key node.key with
  | false => rw [Bool.and_false]
  | true => rw [hashed node mem same, beq_self_eq_true]; rfl

/-- The first node with the key gets the value. -/
theorem setLinked_stored {l : List (TaggedNode α)}
    (hashed : RBTreeNode.HashedAs rt (rt.hash key) key l) (isKey : key.isHole = false)
    (value : JSTaggedValue α) :
    (∃ l', setLinked rt (rt.hash key) key value l = some l' ∧ Put rt key value l l' false) ∨
      setLinked rt (rt.hash key) key value l = none ∧
        ∀ node ∈ l, rt.sameValue key node.key = false := by
  induction l with
  | nil => exact .inr ⟨rfl, nofun⟩
  | cons node next ih =>
    rw [setLinked, hasKey_eq hashed isKey List.mem_cons_self]
    cases same : rt.sameValue key node.key with
    | true => exact .inl ⟨_, rfl, .updated same (List.Perm.refl _) (List.Perm.refl _)⟩
    | false =>
      rcases ih fun x mem => hashed x (List.mem_cons_of_mem _ mem) with ⟨l', run, stored⟩ | ⟨run, absent⟩
      · refine .inl ⟨node :: l', by rw [run]; rfl, ?_⟩
        exact (stored.append [node] nofun).perm (List.perm_append_singleton node next).symm
          (List.perm_append_singleton node l').symm
      · refine .inr ⟨by rw [run]; rfl, fun x mem => ?_⟩
        rcases List.mem_cons.mp mem with rfl | mem
        · exact same
        · exact absent x mem

/-- The counts of the roots tell whether a node was added. -/
theorem count_bne {t t' : RBTreeNode α} (counted : t.Counted) (counted' : t'.Counted) {added : Bool}
    (sizes : t'.nodes.length = t.nodes.length + added.toNat) : (t.count != t'.count) = added := by
  have sizes : t'.size = t.size + added.toNat := sizes
  rw [counted.count_eq, counted'.count_eq, sizes]
  cases added with
  | false => exact bne_self_eq_false _
  | true =>
    have differ (count : UInt32) : count ≠ count + UInt32.ofNat 1 := by
      intro same
      have same := congrArg UInt32.toNat same
      have small := count.toNat_lt
      rw [UInt32.toNat_add, show (UInt32.ofNat 1).toNat = 1 from rfl] at same
      omega
    rw [Bool.toNat_true, UInt32.ofNat_add, bne_iff_ne]
    exact differ _

section Storing

variable (kept : Kept rt table) (assigned : ∀ x y, rt.sameValue x y = true → rt.hash x = rt.hash y)
  (isKey : key.isHole = false)

include kept assigned isKey

theorem hashedAs_bin : RBTreeNode.HashedAs rt (rt.hash key) key (table.binOf rt key).nodes :=
  fun node mem same => kept.hashedAs assigned key node (mem_nodes_of_get mem) same

omit assigned isKey in
/-- `TreeingBin` of a list that was just set. -/
theorem treeingBin_set (hash : Int32) (head : TaggedNode α) (next : List (TaggedNode α)) :
    treeingBin rt (table.set (table.index hash) (.linked head next)) hash = do
      let root ← RBTreeNode.treeing rt (head :: next)
      return table.set (table.index hash) (.ofTree root) := by
  have here : (table.set (table.index hash) (.linked head next)).get (table.index hash) =
      .linked head next := by
    rw [get_set, if_pos ⟨rfl, kept.index_lt hash⟩]
  have again (bin : Bin α) : (table.set (table.index hash) (.linked head next)).set
      (table.index hash) bin = table.set (table.index hash) bin := by
    rw [set, set, set, List.set_set]
  simp only [treeingBin, index_set, here, again]

/-- `SetVal` stores the value if it does not descend past the node of the key. -/
theorem setVal_stored (value : JSTaggedValue α) (found : table.isLeftOfEqual rt key = false) :
    ∃ t added, setVal rt table (rt.hash key) key value = .ok (t, added) ∧ Kept rt t ∧
      Put rt key value table.nodes t.nodes added := by
  have hashed := hashedAs_bin kept assigned isKey
  have change {bin : Bin α} {added : Bool} (tree : bin.Kept)
      (stored : Put rt key value (table.binOf rt key).nodes bin.nodes added) :=
    kept.set_bin assigned tree stored
  have tree := kept.trees (table.index (rt.hash key))
  have distinct : DistinctKeys rt (table.binOf rt key).nodes := by
    obtain ⟨rest, parts, -⟩ := nodes_set (kept.index_lt (rt.hash key))
    exact (List.pairwise_append.mp (kept.distinct.perm parts)).1
  rw [isLeftOfEqual] at found
  unfold binOf at hashed change found distinct
  rw [setVal]
  cases here : table.get (table.index (rt.hash key)) with
  | hole =>
    rw [here] at change
    have stored : Put rt key value (.hole : Bin α).nodes
        (Bin.linked ⟨rt.hash key, key, value⟩ []).nodes true := .added nofun (List.Perm.refl _)
    exact ⟨_, true, rfl, change trivial stored⟩
  | linked head next =>
    rw [here] at change hashed distinct
    rcases setLinked_stored (l := head :: next) hashed isKey value with
      ⟨l', run, stored⟩ | ⟨run, absent⟩
    · simp only [run]
      refine ⟨_, false, rfl, change (Bin.kept_ofList l') ?_⟩
      rw [Bin.nodes_ofList]
      exact stored
    · have stored : Put rt key value (head :: next)
          (head :: (next ++ [⟨rt.hash key, key, value⟩])) true := by
        refine .added absent ?_
        exact List.perm_append_singleton (⟨rt.hash key, key, value⟩ : TaggedNode α) (head :: next)
      simp only [run]
      by_cases many : TREEIFY_THRESHOLD - 1 ≤ next.length + 1
      · rw [if_pos many]
        obtain ⟨root, built, tree'⟩ :=
          RBTreeNode.treeing_tree rt (head :: (next ++ [⟨rt.hash key, key, value⟩]))
        obtain ⟨root', built', perm⟩ := RBTreeNode.treeing_distinct (stored.distinct distinct)
        obtain rfl : root = root' := Except.ok.inj (built.symm.trans built')
        refine ⟨_, true, by rw [treeingBin_set kept, built]; rfl, change (Bin.kept_ofTree tree') ?_⟩
        rw [Bin.nodes_ofTree]
        exact stored.perm (List.Perm.refl _) perm
      · rw [if_neg many]
        have tree := Bin.kept_ofList (head :: (next ++ [⟨rt.hash key, key, value⟩]))
        exact ⟨_, true, rfl, change tree stored⟩
  | tree l red a r =>
    rw [here] at change hashed found distinct tree
    obtain ⟨root, inner, run, tree'⟩ := RBTreeNode.setRoot_tree rt tree ⟨rt.hash key, key, value⟩
    have stored := RBTreeNode.set_stored inner tree.ordered distinct hashed found
    rw [← RBTreeNode.nodes_setBlack root] at stored
    have counts := count_bne tree.counted tree'.counted stored.length
    refine ⟨_, _, by simp only [run]; rfl, ?_⟩
    rw [← counts, ← Bin.nodes_ofTree root.setBlack] at stored
    exact change (Bin.kept_ofTree tree') stored

/-- Otherwise it adds a second node of the key. -/
theorem setVal_misses (value : JSTaggedValue α) (missed : table.isLeftOfEqual rt key = true) :
    ∃ t, setVal rt table (rt.hash key) key value = .ok (t, true) ∧
      (∃ node ∈ table.nodes, rt.sameValue key node.key = true) ∧
      t.nodes.Perm (⟨rt.hash key, key, value⟩ :: table.nodes) := by
  have hashed := hashedAs_bin kept assigned isKey
  obtain ⟨rest, parts, parts'⟩ := nodes_set (kept.index_lt (rt.hash key))
  have distinct := (List.pairwise_append.mp (kept.distinct.perm parts)).1
  have tree := kept.trees (table.index (rt.hash key))
  have inside {node : TaggedNode α} (mem : node ∈ (table.get (table.index (rt.hash key))).nodes) :
      node ∈ table.nodes := mem_nodes_of_get mem
  rw [isLeftOfEqual] at missed
  unfold binOf at hashed missed
  rw [setVal]
  cases here : table.get (table.index (rt.hash key)) with
  | hole =>
    rw [here] at missed
    cases missed
  | linked head next =>
    rw [here] at missed
    cases missed
  | tree l red a r =>
    rw [here] at hashed missed distinct tree parts inside
    obtain ⟨root, inner, run, tree'⟩ := RBTreeNode.setRoot_tree rt tree ⟨rt.hash key, key, value⟩
    have added := RBTreeNode.set_misses inner tree.ordered distinct hashed missed
    have counts : (a.count != root.setBlack.count) = true := by
      refine count_bne tree.counted tree'.counted ?_
      rw [RBTreeNode.nodes_setBlack, added.length_eq]
      rfl
    refine ⟨_, by simp only [run]; exact congrArg (fun b => Except.ok (_, b)) counts, ?_, ?_⟩
    · obtain ⟨node, mem, same⟩ :=
        RBTreeNode.contains_eq_true.mp (RBTreeNode.contains_of_isLeftOfEqual missed)
      exact ⟨node, inside mem, same⟩
    · refine (parts' _).trans (List.Perm.trans ?_ (parts.symm.cons _))
      rw [Bin.nodes_ofTree, RBTreeNode.nodes_setBlack]
      exact added.append_right rest

/-- `Replace` stores the value if there is a node of the key. -/
theorem replaceNode_stored (value : JSTaggedValue α) :
    (∃ t, replaceNode rt table (rt.hash key) key value = some t ∧ Kept rt t ∧
      Put rt key value table.nodes t.nodes false) ∨
    replaceNode rt table (rt.hash key) key value = none ∧
      ∀ node ∈ table.nodes, rt.sameValue key node.key = false := by
  have hashed := hashedAs_bin kept assigned isKey
  have change {bin : Bin α} {added : Bool} (tree : bin.Kept)
      (stored : Put rt key value (table.binOf rt key).nodes bin.nodes added) :=
    kept.set_bin assigned tree stored
  have nowhere := kept.absent_of_bin assigned key
  have tree := kept.trees (table.index (rt.hash key))
  unfold binOf at hashed change nowhere
  rw [replaceNode]
  cases here : table.get (table.index (rt.hash key)) with
  | hole =>
    rw [here] at nowhere
    exact .inr ⟨rfl, nowhere nofun⟩
  | linked head next =>
    rw [here] at change hashed nowhere
    rcases setLinked_stored (l := head :: next) hashed isKey value with
      ⟨l', run, stored⟩ | ⟨run, absent⟩
    · refine .inl ⟨_, by simp only [run]; rfl, change (Bin.kept_ofList l') ?_⟩
      rw [Bin.nodes_ofList]
      exact stored
    · exact .inr ⟨by simp only [run]; rfl, nowhere absent⟩
  | tree l red a r =>
    rw [here] at change hashed nowhere tree
    have finds {visited : List Side × TreeRecord α}
        (mem : visited ∈ levelOrder (paths [] (.node l red a r))) :
        visited ∈ (paths [] (.node l red a r)).toList ∧
          (visited.2.hash == rt.hash key && !visited.2.key.isHole &&
            rt.sameValue key visited.2.key) = rt.sameValue key visited.2.key := by
      have mem := (levelOrder_perm _).subset mem
      have inTree := List.mem_map_of_mem (f := fun v => v.2.toTaggedNode) mem
      rw [nodes_paths] at inTree
      exact ⟨mem, (findsTree_eq rt _ key visited.2.toTaggedNode).trans
        (hasKey_eq hashed isKey inTree)⟩
    cases search : getTreeNode rt (.node l red a r) (rt.hash key) key with
    | none =>
      refine .inr ⟨by simp only [search]; rfl, nowhere fun node mem => ?_⟩
      rw [Bin.nodes, ← nodes_paths []] at mem
      obtain ⟨visited, onPath, rfl⟩ := List.mem_map.mp mem
      have onPath := (levelOrder_perm _).symm.subset onPath
      have other := List.find?_eq_none.mp search visited onPath
      rw [(finds onPath).2] at other
      exact Bool.eq_false_iff.mpr other
    | some visited =>
      have mem := List.mem_of_find?_eq_some search
      have same := List.find?_some search
      rw [(finds mem).2] at same
      obtain ⟨rest, way, before, after, split, split'⟩ :=
        RBTreeNode.setValueAt_nodes value (finds mem).1
      refine .inl ⟨_, by simp only [search]; rfl, change (Bin.kept_ofTree ?_) ?_⟩
      · exact RBTreeNode.setValueAt_tree visited.1 tree
      · rw [Bin.nodes_ofTree, Bin.nodes, way, List.nil_append, split, split']
        exact .updated same List.perm_middle List.perm_middle

/-- `GetNode` finds the node of the key. -/
theorem getNode_kept : getNode rt table (rt.hash key) key =
    table.nodes.find? fun node => rt.sameValue key node.key := by
  obtain ⟨rest, parts, -⟩ := nodes_set (kept.index_lt (rt.hash key))
  have hashed := hashedAs_bin kept assigned isKey
  have nowhere := kept.absent_of_bin assigned key
  unfold binOf at hashed nowhere
  have distinct := kept.distinct.perm parts
  have once : (table.get (table.index (rt.hash key))).nodes.find? (hasKey rt (rt.hash key) key) =
      (table.get (table.index (rt.hash key))).nodes.find? fun node => rt.sameValue key node.key :=
    List.find?_congr fun node mem => hasKey_eq hashed isKey mem
  have whole : table.nodes.find? (fun node => rt.sameValue key node.key) =
      ((table.get (table.index (rt.hash key))).nodes ++ rest).find?
        fun node => rt.sameValue key node.key := by
    refine find?_eq_of_perm parts (List.Pairwise.imp ?_ kept.distinct)
    intro x y differ both
    have same := rt.trans _ _ _ (rt.symm _ _ both.1) both.2
    rw [differ] at same
    cases same
  rw [getNode_eq, Bin.find_eq (fun _ => (List.pairwise_append.mp distinct).1), once, whole,
    List.find?_append]
  cases here : (table.get (table.index (rt.hash key))).nodes.find?
      fun node => rt.sameValue key node.key with
  | some node => rfl
  | none =>
    have absent : ∀ node ∈ (table.get (table.index (rt.hash key))).nodes,
        rt.sameValue key node.key = false := by
      intro node mem
      exact Bool.eq_false_iff.mpr (List.find?_eq_none.mp here node mem)
    symm
    rw [Option.none_or, List.find?_eq_none]
    intro node mem
    rw [nowhere absent node (parts.symm.subset (List.mem_append_right _ mem))]
    exact Bool.false_ne_true

end Storing

/-- The end of `Set`: a table that grows keeps its nodes. -/
theorem grow_kept (kept : Kept rt table) (nodeNum : UInt32) :
    ∃ t, grow rt table nodeNum = .ok t ∧ Kept rt t ∧ t.nodes.Perm table.nodes := by
  rw [grow]
  by_cases full : table.length * 3 / 4 < nodeNum.toNat
  · simp only [full, if_true]
    obtain ⟨k, le, length⟩ := kept.length
    by_cases largest : k = 30
    · refine ⟨table, if_pos ?_, kept, List.Perm.refl _⟩
      rw [length, largest]
      exact Nat.le_refl _
    · have distinct : DistinctTrees rt table := by
        intro bin mem _
        obtain ⟨i, inside, rfl⟩ := List.getElem_of_mem mem
        obtain ⟨rest, parts, -⟩ := nodes_set inside
        have here := (List.pairwise_append.mp (kept.distinct.perm parts)).1
        rwa [get, List.getD_eq_getElem?_getD, List.getElem?_eq_getElem inside] at here
      obtain ⟨t, run, divided⟩ := resize_divided length (by omega) kept.placed distinct
      have perm := divided.perm length
      refine ⟨t, run, ⟨⟨k + 1, by omega, divided.length⟩, divided.placed length (by omega) kept.placed,
        fun node mem => kept.hashed node (perm.subset mem), kept.distinct.perm perm.symm,
        resize_trees run kept.trees⟩, perm⟩
  · simp only [full, if_false]
    exact ⟨table, rfl, kept, List.Perm.refl _⟩

theorem create_kept (rt : KeyRuntime α) : Kept rt (create DEFAULT_INITIAL_CAPACITY) := by
  have none : ∀ i, ((create DEFAULT_INITIAL_CAPACITY : TaggedHashArray α).get i).nodes = [] := by
    intro i
    rw [get_create]
    rfl
  have empty : (create DEFAULT_INITIAL_CAPACITY : TaggedHashArray α).nodes = [] := by
    rw [nodes_eq]
    simp [none]
  refine ⟨⟨4, by decide, List.length_replicate ..⟩, fun i node mem => ?_, ?_, ?_, fun i => ?_⟩
  · rw [none] at mem
    cases mem
  · rw [empty]
    exact nofun
  · rw [empty]
    exact List.Pairwise.nil
  · rw [get_create]
    trivial

/-- `Clear` keeps the length of the table. -/
theorem clear_kept (kept : Kept rt table) : Kept rt table.clear ∧ table.clear.nodes = [] := by
  have holes : ∀ i, table.clear.get i = .hole := by
    intro i
    rw [get, clear, List.getD_eq_getElem?_getD, List.getElem?_map]
    cases table.bins[i]? <;> rfl
  have empty : table.clear.nodes = [] := by
    rw [nodes_eq]
    simp [holes, Bin.nodes]
  refine ⟨⟨?_, fun i node mem => ?_, ?_, ?_, fun i => ?_⟩, empty⟩
  · obtain ⟨k, le, length⟩ := kept.length
    exact ⟨k, le, (List.length_map ..).trans length⟩
  · rw [holes] at mem
    cases mem
  · rw [empty]
    intro node mem
    cases mem
  · rw [empty]
    exact List.Pairwise.nil
  · rw [holes]
    trivial

end TaggedHashArray

end ArkRuntime
