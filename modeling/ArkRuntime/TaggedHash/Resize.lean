import ArkRuntime.TaggedHash.RemoveAbsent
import Mathlib.Data.List.Perm.Basic
import Mathlib.Data.Nat.Bitwise

/-!
# `Resize`

The nodes of a bin are parted by one bit of their hashes, whether the bin is one node, a list or a
tree. A half of a tree that becomes a tree again is built by `Set`, which puts the value of a second
node with a key into the first one; so the keys of a tree bin must be different values.
-/

namespace ArkRuntime

open TaggedHashArray

variable {α : Type} {rt : KeyRuntime α}

/-- If at most one element satisfies a predicate, the order does not matter to a search. -/
theorem find?_eq_of_perm {β : Type} {p : β → Bool} {l l' : List β} (perm : l.Perm l')
    (once : l.Pairwise fun x y => ¬(p x = true ∧ p y = true)) : l.find? p = l'.find? p := by
  have few : (l.filter p).length ≤ 1 := by
    have pairs := once.filter p
    cases found : l.filter p with
    | nil => exact Nat.zero_le 1
    | cons x rest =>
      cases rest with
      | nil => exact Nat.le_refl 1
      | cons y rest =>
        have memX : x ∈ l.filter p := found ▸ List.mem_cons_self
        have memY : y ∈ l.filter p := found ▸ List.mem_cons_of_mem _ List.mem_cons_self
        rw [found] at pairs
        exact absurd ⟨(List.mem_filter.mp memX).2, (List.mem_filter.mp memY).2⟩
          ((List.pairwise_cons.mp pairs).1 y List.mem_cons_self)
  have same : l.filter p = l'.filter p := by
    have filtered := perm.filter p
    cases found : l.filter p with
    | nil =>
      rw [found] at filtered
      exact (List.nil_perm.mp filtered).symm
    | cons x rest =>
      rw [found] at few filtered
      obtain rfl : rest = [] := List.eq_nil_of_length_eq_zero (by simpa using few)
      exact List.singleton_perm.mp filtered
  rw [← List.head?_filter, ← List.head?_filter, same]

/-! ## Treeing -/

/-- No key comes twice. -/
def DistinctKeys (rt : KeyRuntime α) (l : List (TaggedNode α)) : Prop :=
  l.Pairwise fun x y => rt.sameValue x.key y.key = false

theorem KeyRuntime.sameValue_comm (rt : KeyRuntime α) (x y : JSTaggedValue α) :
    rt.sameValue x y = rt.sameValue y x :=
  Bool.eq_iff_iff.mpr ⟨rt.symm x y, rt.symm y x⟩

variable {l : List (TaggedNode α)} {keep : TaggedNode α → Bool} {old new : Bin α}

theorem DistinctKeys.perm {l' : List (TaggedNode α)} (distinct : DistinctKeys rt l) (perm : l.Perm l') :
    DistinctKeys rt l' :=
  perm.pairwise distinct fun {x y} differ => (rt.sameValue_comm y.key x.key).trans differ

theorem DistinctKeys.filter (distinct : DistinctKeys rt l) (keep : TaggedNode α → Bool) :
    DistinctKeys rt (l.filter keep) :=
  List.Pairwise.filter keep distinct

/-- A search by key finds at most one of different keys. -/
theorem DistinctKeys.once (distinct : DistinctKeys rt l) (hash : Int32) (key : JSTaggedValue α) :
    l.Pairwise fun x y => ¬(hasKey rt hash key x = true ∧ hasKey rt hash key y = true) := by
  refine List.Pairwise.imp ?_ distinct
  intro x y differ both
  obtain ⟨findsX, findsY⟩ := both
  simp only [hasKey, Bool.and_eq_true] at findsX findsY
  have same := rt.trans _ _ _ (rt.symm _ _ findsX.2) findsY.2
  rw [differ] at same
  cases same

namespace RBTreeNode

open ColorTree

/-- `Set` of a key that is not in the tree adds a node. -/
theorem set_absent (rt : KeyRuntime α) (hash : Int32) (key value : JSTaggedValue α) :
    ∀ {t t' : RBTreeNode α}, set rt hash key value t = .ok t' →
      (∀ node ∈ nodes t, rt.sameValue key node.key = false) →
      t' ≠ .nil ∧ (nodes t').Perm (⟨hash, key, value⟩ :: nodes t) := by
  intro t
  induction t with
  | nil =>
    intro t' run absent
    cases run
    exact ⟨nofun, List.Perm.refl _⟩
  | node l red a r ihl ihr =>
    intro t' run absent
    have nonempty {before after : List (TaggedNode α)} {node : TaggedNode α}
        (same : nodes t' = before ++ node :: after) : t' ≠ .nil := by
      rintro rfl
      simp at same
    rw [nodes_node] at absent
    have other : rt.sameValue key a.key = false := absent a.toTaggedNode (by simp)
    rcases set_node run with ⟨here, -⟩ | ⟨-, -, l', inner, same⟩ | ⟨-, -, r', inner, same⟩
    · rw [other] at here
      cases here
    · obtain ⟨-, perm⟩ := ihl inner fun node mem => absent node (by simp [mem])
      refine ⟨nonempty same, ?_⟩
      rw [same, nodes_node]
      exact perm.append_right _
    · obtain ⟨-, perm⟩ := ihr inner fun node mem => absent node (by simp [mem])
      refine ⟨nonempty same, ?_⟩
      rw [same, nodes_node]
      exact ((perm.cons _).append_left _).trans
        (((List.Perm.swap _ _ _).append_left _).trans List.perm_middle)

/-- `Treeing` of different keys puts each of them into the tree. -/
theorem treeing_distinct {head : List (TaggedNode α)} (distinct : DistinctKeys rt head) :
    ∃ t, treeing rt head = .ok t ∧ (nodes t).Perm head := by
  have go : ∀ (rest : List (TaggedNode α)) (t : RBTreeNode α) (n : Nat), LeftLeaning false n t →
      DistinctKeys rt (nodes t ++ rest) →
      ∃ t', rest.foldlM (setRoot rt) t = .ok t' ∧ (nodes t').Perm (nodes t ++ rest) := by
    intro rest
    induction rest with
    | nil =>
      intro t n leaning distinct
      exact ⟨t, rfl, by rw [List.append_nil]⟩
    | cons node rest ih =>
      intro t n leaning distinct
      obtain ⟨t1, run, leaning1⟩ := set_leaning rt node.hash node.key node.value leaning
      obtain ⟨m, leaning2⟩ : ∃ m, LeftLeaning false m t1.setBlack := leaning1.of_black.choose_spec.blacken
      have absent : ∀ x ∈ nodes t, rt.sameValue node.key x.key = false := by
        intro x mem
        rw [rt.sameValue_comm]
        exact (List.pairwise_append.mp distinct).2.2 x mem node List.mem_cons_self
      obtain ⟨-, perm⟩ := set_absent rt node.hash node.key node.value run absent
      have moved : (nodes t1.setBlack ++ rest).Perm (nodes t ++ node :: rest) := by
        rw [nodes_setBlack]
        exact (perm.append_right rest).trans List.perm_middle.symm
      obtain ⟨t', rest_run, perm'⟩ := ih t1.setBlack m leaning2 (distinct.perm moved.symm)
      refine ⟨t', ?_, perm'.trans moved⟩
      rw [List.foldlM_cons, setRoot, run]
      exact rest_run
  exact go head .nil 0 .nil distinct

end RBTreeNode

/-! ## Halves of a bin -/

/-- `new` holds the nodes of `old` that are kept, in their order if `old` is a list. -/
structure Half (keep : TaggedNode α → Bool) (old new : Bin α) : Prop where
  perm : new.nodes.Perm (old.nodes.filter keep)
  list : old.isTree = false → new.nodes = old.nodes.filter keep
  tree : new.isTree = true → old.isTree = true

@[simp] theorem Bin.nodes_ofList (l : List (TaggedNode α)) : (Bin.ofList l).nodes = l := by
  cases l <;> rfl

@[simp] theorem Bin.isTree_ofList (l : List (TaggedNode α)) : (Bin.ofList l).isTree = false := by
  cases l <;> rfl

@[simp] theorem Bin.nodes_ofTree (t : RBTreeNode α) : (Bin.ofTree t).nodes = t.nodes := by
  cases t <;> rfl

/-- The node of a bin that `GetNode` finds. -/
def Bin.find (rt : KeyRuntime α) (hash : Int32) (key : JSTaggedValue α) (bin : Bin α) :
    Option (TaggedNode α) :=
  match bin with
  | .hole => none
  | .linked head next => (head :: next).find? (hasKey rt hash key)
  | .tree l red a r =>
    (getTreeNode rt (.node l red a r) hash key).map fun visited => visited.2.toTaggedNode

theorem getNode_eq (rt : KeyRuntime α) (table : TaggedHashArray α) (hash : Int32)
    (key : JSTaggedValue α) :
    getNode rt table hash key = (table.get (table.index hash)).find rt hash key := by
  unfold getNode Bin.find
  rfl

theorem nodes_paths (way : List Side) (t : RBTreeNode α) :
    (paths way t).toList.map (fun visited => visited.2.toTaggedNode) = t.nodes := by
  induction t generalizing way with
  | nil => rfl
  | node l red a r ihl ihr =>
    rw [paths, ColorTree.toList, List.map_append, List.map_cons, ihl, ihr, RBTreeNode.nodes_node]

/-- `GetTreeNode` asks the key of the node whether it is a Hole. -/
theorem findsTree_eq (rt : KeyRuntime α) (hash : Int32) (key : JSTaggedValue α)
    (node : TaggedNode α) :
    (node.hash == hash && !node.key.isHole && rt.sameValue key node.key) =
      hasKey rt hash key node := by
  rw [hasKey]
  cases same : rt.sameValue key node.key with
  | false => rw [Bool.and_false, Bool.and_false]
  | true =>
    have holes : node.key.isHole = key.isHole := by
      refine Bool.eq_iff_iff.mpr ⟨fun hole => ?_, fun hole => ?_⟩
      · rw [JSTaggedValue.isHole_eq_true.mp hole] at same
        rw [rt.hole _ (rt.symm _ _ same)]
        rfl
      · rw [JSTaggedValue.isHole_eq_true.mp hole] at same
        rw [rt.hole _ same]
        rfl
    rw [holes]

/-- The order in which a tree is searched does not matter if no key comes twice. -/
theorem Bin.find_eq {bin : Bin α} (distinct : bin.isTree = true → DistinctKeys rt bin.nodes)
    (hash : Int32) (key : JSTaggedValue α) :
    bin.find rt hash key = bin.nodes.find? (hasKey rt hash key) := by
  cases bin with
  | hole => rfl
  | linked head next => rfl
  | tree l red a r =>
    have perm := (levelOrder_perm (paths [] (.node l red a r))).map
      fun visited => visited.2.toTaggedNode
    rw [nodes_paths] at perm
    have once := (distinct rfl).once hash key
    have found := (find?_eq_of_perm perm.symm once).symm
    rw [List.find?_map] at found
    refine Eq.trans ?_ found
    simp only [Bin.find, getTreeNode]
    congr 2
    funext visited
    exact findsTree_eq rt hash key visited.2.toTaggedNode

/-- A half of a bin finds the nodes that it keeps. -/
theorem Half.find_eq (half : Half keep old new) (distinct : old.isTree = true → DistinctKeys rt old.nodes)
    {hash : Int32} (kept : ∀ node : TaggedNode α, node.hash = hash → keep node = true) (key : JSTaggedValue α) :
    new.find rt hash key = old.find rt hash key := by
  have distinctNew : new.isTree = true → DistinctKeys rt new.nodes := by
    intro isTree
    exact ((distinct (half.tree isTree)).filter keep).perm half.perm.symm
  have filtered : (old.nodes.filter keep).find? (hasKey rt hash key) =
      old.nodes.find? (hasKey rt hash key) := by
    rw [List.find?_filter]
    congr 1
    funext node
    by_cases found : hasKey rt hash key node = true
    · simp only [hasKey, Bool.and_eq_true, beq_iff_eq] at found
      simp [kept node found.1.1]
    · simp [found]
  rw [Bin.find_eq distinct, Bin.find_eq distinctNew, ← filtered]
  cases isTree : old.isTree with
  | false => rw [half.list isTree]
  | true =>
    have distinctHalf := ((distinct isTree).filter keep).perm half.perm.symm
    exact find?_eq_of_perm half.perm (distinctHalf.once hash key)

/-! ## One bin -/

/-- The nodes that stay at their index. -/
def stays (bit : Int32) (node : TaggedNode α) : Bool := node.hash &&& bit = 0

theorem disperse_foldl (bit : Int32) (l : List (TaggedNode α))
    (halves : List (TaggedNode α) × List (TaggedNode α)) :
    l.foldl (disperse bit) halves =
      (halves.1 ++ l.filter (stays bit), halves.2 ++ l.filter fun node => !stays bit node) := by
  induction l generalizing halves with
  | nil => simp
  | cons node rest ih =>
    rw [List.foldl_cons, ih, disperse]
    by_cases lower : node.hash &&& bit = 0
    · simp [stays, lower]
    · simp [stays, lower]

theorem inOrderTraverse_eq (bit : Int32) (t : RBTreeNode α)
    (halves : List (TaggedNode α) × List (TaggedNode α)) :
    inOrderTraverse bit t halves = t.nodes.foldl (disperse bit) halves := by
  induction t generalizing halves with
  | nil => rfl
  | node l red a r ihl ihr =>
    rw [inOrderTraverse, ihl, ihr, RBTreeNode.nodes_node, List.foldl_append, List.foldl_cons]

/-- `table` with its bins at `j` and `j + n` replaced. -/
def TaggedHashArray.setHalves (table : TaggedHashArray α) (j n : Nat) (lower higher : Bin α) :
    TaggedHashArray α := (table.set j lower).set (j + n) higher

theorem Half.of_list (list : new.isTree = false) (nodes : new.nodes = old.nodes.filter keep) :
    Half keep old new where
  perm := by rw [nodes]
  list := fun _ => nodes
  tree isTree := by
    rw [list] at isTree
    cases isTree

theorem Half.of_tree (tree : old.isTree = true) (perm : new.nodes.Perm (old.nodes.filter keep)) :
    Half keep old new where
  perm := perm
  list isList := by
    rw [tree] at isList
    cases isList
  tree := fun _ => tree

namespace TaggedHashArray

variable {table newTab : TaggedHashArray α} {i j n k : Nat}

@[simp] theorem length_set (table : TaggedHashArray α) (i : Nat) (bin : Bin α) :
    (table.set i bin).length = table.length := List.length_set ..

theorem get_set (table : TaggedHashArray α) (i j : Nat) (bin : Bin α) :
    (table.set i bin).get j = if i = j ∧ j < table.length then bin else table.get j := by
  unfold get set length
  rw [List.getD_eq_getElem?_getD, List.getD_eq_getElem?_getD, List.getElem?_set]
  by_cases same : i = j
  · subst same
    by_cases inside : i < table.bins.length
    · simp [inside]
    · simp [inside]
  · simp [same]

/-- A bin that is set to what it was. -/
theorem set_get (table : TaggedHashArray α) (i : Nat) : table.set i (table.get i) = table := by
  obtain ⟨bins⟩ := table
  unfold get set
  rw [List.getD_eq_getElem?_getD]
  congr 1
  by_cases inside : i < bins.length
  · simp [inside]
  · rw [List.set_eq_of_length_le (Nat.le_of_not_lt inside)]

theorem setHalves_hole (lower : newTab.get j = .hole) (higher : newTab.get (j + n) = .hole) :
    newTab.setHalves j n .hole .hole = newTab := by
  rw [setHalves, ← lower, set_get, lower, ← higher, set_get]

theorem index_eq (length : table.length = 2 ^ k) (below : k < 32) (hash : Int32) :
    table.index hash = hash.toUInt32.toNat % 2 ^ k := by
  have fits : 2 ^ k < 2 ^ 32 := Nat.pow_lt_pow_right (by decide) below
  have mask : (UInt32.ofNat (2 ^ k) - 1).toNat = 2 ^ k - 1 := by
    rw [UInt32.toNat_sub_of_le, UInt32.toNat_ofNat_of_lt' fits]
    · rfl
    · rw [UInt32.le_iff_toNat_le, UInt32.toNat_ofNat_of_lt' fits]
      exact Nat.one_le_two_pow
  rw [index, length, UInt32.toNat_and, mask, Nat.and_comm, Nat.and_two_pow_sub_one_eq_mod]

theorem stays_eq (below : k < 32) (node : TaggedNode α) :
    stays (Int32.ofNat (2 ^ k)) node = !node.hash.toUInt32.toNat.testBit k := by
  have fits : 2 ^ k < 2 ^ 32 := Nat.pow_lt_pow_right (by decide) below
  have bit : (Int32.ofNat (2 ^ k)).toUInt32.toNat = 2 ^ k := UInt32.toNat_ofNat_of_lt' fits
  have bits : node.hash &&& Int32.ofNat (2 ^ k) = 0 ↔
      (node.hash.toUInt32.toNat.testBit k).toNat * 2 ^ k = 0 := by
    have both : (node.hash &&& Int32.ofNat (2 ^ k)).toUInt32.toNat =
        node.hash.toUInt32.toNat &&& 2 ^ k := by
      rw [Int32.toUInt32_and, UInt32.toNat_and, bit]
    rw [← Nat.and_two_pow, ← both]
    refine ⟨fun zero => by rw [zero]; rfl, fun zero => ?_⟩
    have same : (node.hash &&& Int32.ofNat (2 ^ k)).toUInt32 = (0 : Int32).toUInt32 :=
      UInt32.toNat_inj.mp zero
    exact congrArg Int32.ofUInt32 same
  rw [stays]
  by_cases high : node.hash.toUInt32.toNat.testBit k = true
  · simp [bits, high]
  · simp [bits, high]

/-- The bit `k` of a hash says where a node goes. -/
theorem mod_succ_eq (below : k < 32) (node : TaggedNode α) :
    node.hash.toUInt32.toNat % 2 ^ (k + 1) = node.hash.toUInt32.toNat % 2 ^ k +
      if stays (Int32.ofNat (2 ^ k)) node then 0 else 2 ^ k := by
  rw [stays_eq below, Nat.mod_pow_succ, ← Nat.toNat_testBit]
  cases node.hash.toUInt32.toNat.testBit k <;> simp

/-! ### The three pieces of code -/

theorem placeHalf_spec {half : List (TaggedNode α)} (distinct : DistinctKeys rt half)
    (free : table.get i = .hole) (count : Nat) :
    ∃ bin, placeHalf rt table i count half = .ok (table.set i bin) ∧ bin.nodes.Perm half := by
  cases half with
  | nil => exact ⟨.hole, by rw [placeHalf, ← free, set_get], List.Perm.refl _⟩
  | cons head next =>
    rw [placeHalf]
    by_cases large : TREEIFY_THRESHOLD ≤ count
    · obtain ⟨root, run, perm⟩ := RBTreeNode.treeing_distinct distinct
      refine ⟨.ofTree root, ?_, ?_⟩
      · rw [if_pos large, run]
        rfl
      · rw [Bin.nodes_ofTree]
        exact perm
    · exact ⟨.linked head next, if_neg large, List.Perm.refl _⟩

theorem divide_spec {l r : RBTreeNode α} {red : Bool} {a : TreeRecord α}
    (distinct : DistinctKeys rt (Bin.tree l red a r).nodes) (positive : 0 < n)
    (lowerFree : newTab.get j = .hole) (higherFree : newTab.get (j + n) = .hole) :
    ∃ lower higher, divide rt newTab (.node l red a r) j n = .ok (newTab.setHalves j n lower higher) ∧
      Half (stays (Int32.ofNat n)) (.tree l red a r) lower ∧
      Half (fun node => !stays (Int32.ofNat n) node) (.tree l red a r) higher := by
  have halves : inOrderTraverse (Int32.ofNat n) (.node l red a r) ([], []) =
      ((Bin.tree l red a r).nodes.filter (stays (Int32.ofNat n)),
        (Bin.tree l red a r).nodes.filter fun node => !stays (Int32.ofNat n) node) := by
    rw [inOrderTraverse_eq, disperse_foldl]
    rfl
  obtain ⟨lower, placed, permLower⟩ := placeHalf_spec (distinct.filter (stays (Int32.ofNat n)))
    lowerFree (((Bin.tree l red a r).nodes.filter (stays (Int32.ofNat n))).length +
      ((Bin.tree l red a r).nodes.filter fun node => !stays (Int32.ofNat n) node).length)
  have stillFree : (newTab.set j lower).get (j + n) = .hole := by
    rw [get_set, if_neg (by omega), higherFree]
  obtain ⟨higher, placed', permHigher⟩ := placeHalf_spec
    (distinct.filter fun node => !stays (Int32.ofNat n) node) stillFree 0
  refine ⟨lower, higher, ?_, .of_tree rfl permLower, .of_tree rfl permHigher⟩
  rw [divide, halves]
  simp only
  rw [placed]
  exact placed'

theorem nodeDisperse_spec (head : TaggedNode α) (next : List (TaggedNode α)) (positive : 0 < n)
    (lowerFree : newTab.get j = .hole) (higherFree : newTab.get (j + n) = .hole) :
    ∃ lower higher, nodeDisperse newTab (head :: next) j n = newTab.setHalves j n lower higher ∧
      Half (stays (Int32.ofNat n)) (.linked head next) lower ∧
      Half (fun node => !stays (Int32.ofNat n) node) (.linked head next) higher := by
  have keep (table : TaggedHashArray α) (i : Nat) (free : table.get i = .hole)
      (half : List (TaggedNode α)) :
      (if half.isEmpty then table else table.set i (.ofList half)) = table.set i (.ofList half) := by
    cases half with
    | nil =>
      have empty : (Bin.ofList [] : Bin α) = table.get i := free.symm
      rw [empty, set_get]
      exact if_pos rfl
    | cons head next => exact if_neg nofun
  refine ⟨.ofList ((head :: next).filter (stays (Int32.ofNat n))),
    .ofList ((head :: next).filter fun node => !stays (Int32.ofNat n) node), ?_,
    .of_list (Bin.isTree_ofList _) (Bin.nodes_ofList _),
    .of_list (Bin.isTree_ofList _) (Bin.nodes_ofList _)⟩
  have stillFree (lower : Bin α) : (newTab.set j lower).get (j + n) = .hole := by
    rw [get_set, if_neg (by omega), higherFree]
  simp only [nodeDisperse, disperse_foldl, List.nil_append]
  rw [keep newTab j lowerFree, keep _ _ (stillFree _), setHalves]

theorem single_spec (node : TaggedNode α) (below : k < 31)
    (placed : node.hash.toUInt32.toNat % 2 ^ k = j)
    (lowerFree : newTab.get j = .hole) (higherFree : newTab.get (j + 2 ^ k) = .hole) :
    ∃ lower higher, newTab.set
        (node.hash.toUInt32 &&& (UInt32.ofNat (2 ^ (k + 1)) - 1)).toNat (.linked node []) =
        newTab.setHalves j (2 ^ k) lower higher ∧
      Half (stays (Int32.ofNat (2 ^ k))) (.linked node []) lower ∧
      Half (fun node => !stays (Int32.ofNat (2 ^ k)) node) (.linked node []) higher := by
  have place : (node.hash.toUInt32 &&& (UInt32.ofNat (2 ^ (k + 1)) - 1)).toNat =
      node.hash.toUInt32.toNat % 2 ^ (k + 1) := by
    rw [UInt32.and_comm]
    have created := index_eq
      (show (create (2 ^ (k + 1)) : TaggedHashArray α).length = 2 ^ (k + 1) from
        List.length_replicate ..) (by omega) node.hash
    rwa [index, length, create, List.length_replicate] at created
  rw [place, mod_succ_eq (by omega), placed]
  cases stay : stays (Int32.ofNat (2 ^ k)) node with
  | true =>
    refine ⟨.linked node [], .hole, ?_, .of_list rfl ?_, .of_list rfl ?_⟩
    · have free : (newTab.set j (.linked node [])).get (j + 2 ^ k) = .hole := by
        rw [get_set, if_neg (by simp), higherFree]
      rw [setHalves, if_pos rfl, Nat.add_zero]
      conv_rhs => rw [← free, set_get]
    · simp [Bin.nodes, stay]
    · simp [Bin.nodes, stay]
  | false =>
    refine ⟨.hole, .linked node [], ?_, .of_list rfl ?_, .of_list rfl ?_⟩
    · rw [setHalves, ← lowerFree, set_get]
      rfl
    · simp [Bin.nodes, stay]
    · simp [Bin.nodes, stay]

/-- One round of `Resize`. -/
theorem resizeBin_spec {bin : Bin α} (below : k < 31)
    (distinct : bin.isTree = true → DistinctKeys rt bin.nodes)
    (placed : ∀ node ∈ bin.nodes, node.hash.toUInt32.toNat % 2 ^ k = j)
    (lowerFree : newTab.get j = .hole) (higherFree : newTab.get (j + 2 ^ k) = .hole) :
    ∃ lower higher, resizeBin rt (2 ^ (k + 1)) (2 ^ k) j newTab bin =
        .ok (newTab.setHalves j (2 ^ k) lower higher) ∧
      Half (stays (Int32.ofNat (2 ^ k))) bin lower ∧
      Half (fun node => !stays (Int32.ofNat (2 ^ k)) node) bin higher := by
  cases bin with
  | hole =>
    refine ⟨.hole, .hole, ?_, .of_list rfl rfl, .of_list rfl rfl⟩
    rw [setHalves_hole lowerFree higherFree]
    rfl
  | tree l red a r => exact divide_spec (distinct rfl) (Nat.two_pow_pos k) lowerFree higherFree
  | linked head next =>
    cases next with
    | nil =>
      obtain ⟨lower, higher, run, halves⟩ :=
        single_spec head below (placed head List.mem_cons_self) lowerFree higherFree
      exact ⟨lower, higher, congrArg _ run, halves⟩
    | cons node rest =>
      obtain ⟨lower, higher, run, halves⟩ :=
        nodeDisperse_spec head (node :: rest) (Nat.two_pow_pos k) lowerFree higherFree
      exact ⟨lower, higher, congrArg _ run, halves⟩

/-! ## The whole table -/

@[simp] theorem length_setHalves (table : TaggedHashArray α) (j n : Nat) (lower higher : Bin α) :
    (table.setHalves j n lower higher).length = table.length := by
  rw [setHalves, length_set, length_set]

/-- The loop of `Resize` puts the halves of the bins it has not seen into free places. -/
theorem resizeBins_spec (rt : KeyRuntime α) (below : k < 31) {bins : List (Bin α)}
    (length : newTab.length = 2 ^ (k + 1)) (inside : j + bins.length ≤ 2 ^ k)
    (free : ∀ i, j ≤ i → newTab.get i = .hole ∨ 2 ^ k ≤ i)
    (higherFree : ∀ i, j ≤ i → newTab.get (i + 2 ^ k) = .hole)
    (distinct : ∀ bin ∈ bins, bin.isTree = true → DistinctKeys rt bin.nodes)
    (placed : ∀ p bin, bins[p]? = some bin →
      ∀ node ∈ bin.nodes, node.hash.toUInt32.toNat % 2 ^ k = j + p) :
    ∃ t, resizeBins rt (2 ^ (k + 1)) (2 ^ k) j newTab bins = .ok t ∧ t.length = 2 ^ (k + 1) ∧
      (∀ p bin, bins[p]? = some bin →
        Half (stays (Int32.ofNat (2 ^ k))) bin (t.get (j + p)) ∧
        Half (fun node => !stays (Int32.ofNat (2 ^ k)) node) bin (t.get (j + p + 2 ^ k))) ∧
      ∀ i < j, t.get i = newTab.get i ∧ t.get (i + 2 ^ k) = newTab.get (i + 2 ^ k) := by
  induction bins generalizing j newTab with
  | nil => exact ⟨newTab, rfl, length, nofun, fun i _ => ⟨rfl, rfl⟩⟩
  | cons bin bins ih =>
    rw [List.length_cons] at inside
    have size : 2 ^ (k + 1) = 2 ^ k + 2 ^ k := by rw [Nat.pow_succ]; omega
    have lowerFree : newTab.get j = .hole := (free j (Nat.le_refl j)).resolve_right (by omega)
    obtain ⟨lower, higher, run, lowerHalf, higherHalf⟩ := resizeBin_spec (j := j) below
      (distinct bin List.mem_cons_self) (placed 0 bin rfl) lowerFree (higherFree j (Nat.le_refl j))
    have getLower : ∀ i < 2 ^ k, (newTab.setHalves j (2 ^ k) lower higher).get i =
        if j = i then lower else newTab.get i := by
      intro i below
      rw [setHalves, get_set, if_neg (by omega), get_set, length]
      by_cases same : j = i
      · rw [if_pos same, if_pos ⟨same, by omega⟩]
      · rw [if_neg same, if_neg fun both => same both.1]
    have getHigher : ∀ i, (newTab.setHalves j (2 ^ k) lower higher).get (i + 2 ^ k) =
        if j = i then higher else newTab.get (i + 2 ^ k) := by
      intro i
      rw [setHalves, get_set, get_set, length_set, length]
      by_cases same : j = i
      · rw [if_pos same, if_pos (by omega)]
      · rw [if_neg same, if_neg (by omega), if_neg (by omega)]
    obtain ⟨t, rest, length', halves, kept⟩ := ih (j := j + 1)
      (show (newTab.setHalves j (2 ^ k) lower higher).length = 2 ^ (k + 1) by
        rw [length_setHalves, length]) (by omega)
      (fun i le => by
        by_cases high : 2 ^ k ≤ i
        · exact .inr high
        · rw [getLower i (by omega), if_neg (by omega)]
          exact free i (by omega))
      (fun i le => by rw [getHigher, if_neg (by omega)]; exact higherFree i (by omega))
      (fun b mem => distinct b (List.mem_cons_of_mem _ mem))
      (fun p b found node mem => by
        rw [placed (p + 1) b found node mem]
        omega)
    refine ⟨t, ?_, length', ?_, ?_⟩
    · rw [resizeBins, run]
      exact rest
    · intro p b found
      cases p with
      | zero =>
        obtain rfl : bin = b := Option.some.inj found
        obtain ⟨keptLower, keptHigher⟩ := kept j (by omega)
        rw [Nat.add_zero, keptLower, keptHigher, getLower j (by omega), getHigher, if_pos rfl,
          if_pos rfl]
        exact ⟨lowerHalf, higherHalf⟩
      | succ p =>
        have := halves p b found
        rwa [show j + (p + 1) = j + 1 + p by omega]
    · intro i less
      obtain ⟨keptLower, keptHigher⟩ := kept i (by omega)
      rw [keptLower, keptHigher, getLower i (by omega), getHigher, if_neg (by omega),
        if_neg (by omega)]
      exact ⟨rfl, rfl⟩

theorem nodes_eq (table : TaggedHashArray α) :
    table.nodes = (List.range table.length).flatMap fun i => (table.get i).nodes := by
  have bins : table.bins = (List.range table.length).map table.get := by
    refine List.ext_getElem (by simp [length]) ?_
    intro i inside _
    simp [get, inside]
  rw [nodes, bins, List.flatMap_map]

/-- Every node stands in the bin of its hash. -/
def Placed (table : TaggedHashArray α) : Prop :=
  ∀ i, ∀ node ∈ (table.get i).nodes, table.index node.hash = i

/-- No key comes twice in a tree. -/
def DistinctTrees (rt : KeyRuntime α) (table : TaggedHashArray α) : Prop :=
  ∀ bin ∈ table.bins, bin.isTree = true → DistinctKeys rt bin.nodes

theorem get_of_length_le (large : table.length ≤ i) : table.get i = .hole := by
  unfold get length at *
  rw [List.getD_eq_getElem?_getD, List.getElem?_eq_none large]
  rfl

theorem get_create (n i : Nat) : (create n : TaggedHashArray α).get i = .hole := by
  rw [get, create]
  by_cases inside : i < n <;> simp [inside]

theorem get_eq (inside : i < table.length) : table.bins[i]? = some (table.get i) := by
  unfold get length at *
  rw [List.getD_eq_getElem?_getD, List.getElem?_eq_getElem inside]
  rfl

/-- The two halves of every bin. -/
structure Divided (k : Nat) (old new : TaggedHashArray α) : Prop where
  length : new.length = 2 ^ (k + 1)
  lower : ∀ i < 2 ^ k, Half (stays (Int32.ofNat (2 ^ k))) (old.get i) (new.get i)
  higher : ∀ i < 2 ^ k, Half (fun node => !stays (Int32.ofNat (2 ^ k)) node) (old.get i)
    (new.get (i + 2 ^ k))

theorem resize_divided (length : table.length = 2 ^ k) (below : k < 30)
    (placed : Placed table) (distinct : DistinctTrees rt table) :
    ∃ t, resize rt table table.length = .ok t ∧ Divided k table t := by
  have small : ¬MAXIMUM_CAPACITY ≤ 2 ^ k :=
    Nat.not_le_of_lt (Nat.pow_lt_pow_right (by decide) below)
  have double : 2 ^ k <<< 1 = 2 ^ (k + 1) := by
    rw [Nat.shiftLeft_eq, Nat.pow_one, Nat.pow_succ]
  obtain ⟨t, run, length', halves, -⟩ := resizeBins_spec (j := 0) rt (show k < 31 by omega)
    (show (create (2 ^ (k + 1)) : TaggedHashArray α).length = 2 ^ (k + 1) from
      List.length_replicate ..)
    (show 0 + table.bins.length ≤ 2 ^ k by rw [Nat.zero_add]; exact Nat.le_of_eq length)
    (fun i _ => .inl (get_create ..))
    (fun i _ => get_create ..) distinct
    (fun p bin found node mem => by
      have inside : p < table.length := (List.getElem?_eq_some_iff.mp found).1
      rw [get_eq inside] at found
      obtain rfl := Option.some.inj found
      rw [Nat.zero_add, ← index_eq length (by omega)]
      exact placed p node mem)
  refine ⟨t, ?_, length', ?_, ?_⟩
  · rw [resize]
    simp only [length, small, if_false, double]
    exact run
  · intro i inside
    have half := (halves i (table.get i) (get_eq (by omega))).1
    rwa [Nat.zero_add] at half
  · intro i inside
    have half := (halves i (table.get i) (get_eq (by omega))).2
    rwa [Nat.zero_add] at half

variable {t : TaggedHashArray α}

theorem Divided.perm (length : table.length = 2 ^ k) (divided : Divided k table t) :
    t.nodes.Perm table.nodes := by
  rw [nodes_eq, nodes_eq, divided.length, length, Nat.pow_succ, Nat.mul_two, List.range_add,
    List.flatMap_append, List.flatMap_map]
  refine (List.flatMap_append_perm ..).trans (List.Perm.flatMap_left _ fun i mem => ?_)
  have inside := List.mem_range.mp mem
  have higher := (divided.higher i inside).perm
  rw [Nat.add_comm] at higher
  exact ((divided.lower i inside).perm.append higher).trans (List.filter_append_perm ..)

theorem Divided.bin (length : table.length = 2 ^ k) (below : k < 30) (divided : Divided k table t)
    (hash : Int32) :
    ∃ keep, Half keep (table.get (table.index hash)) (t.get (t.index hash)) ∧
      ∀ node : TaggedNode α, node.hash = hash → keep node = true := by
  have inside : hash.toUInt32.toNat % 2 ^ k < 2 ^ k := Nat.mod_lt _ (Nat.two_pow_pos k)
  have moved := mod_succ_eq (show k < 32 by omega) (⟨hash, .hole, .hole⟩ : TaggedNode α)
  simp only at moved
  rw [index_eq length (by omega), index_eq divided.length (by omega), moved]
  cases stay : stays (Int32.ofNat (2 ^ k)) (⟨hash, .hole, .hole⟩ : TaggedNode α) with
  | true =>
    refine ⟨_, divided.lower _ inside, fun node same => ?_⟩
    rw [← stay, stays, stays, same]
  | false =>
    refine ⟨_, divided.higher _ inside, fun node same => ?_⟩
    have other : stays (Int32.ofNat (2 ^ k)) node = false := by
      rw [← stay, stays, stays, same]
    simp only [other, Bool.not_false]

theorem Divided.placed (length : table.length = 2 ^ k) (below : k < 30) (divided : Divided k table t)
    (placed : Placed table) : Placed t := by
  intro i node mem
  have size : 2 ^ (k + 1) = 2 ^ k + 2 ^ k := by rw [Nat.pow_succ]; omega
  by_cases inside : i < 2 ^ (k + 1)
  · rw [index_eq divided.length (by omega), mod_succ_eq (show k < 32 by omega),
      ← index_eq length (by omega)]
    by_cases low : i < 2 ^ k
    · obtain ⟨was, stay⟩ := List.mem_filter.mp ((divided.lower i low).perm.subset mem)
      rw [placed i node was, if_pos stay, Nat.add_zero]
    · obtain ⟨p, rfl⟩ := Nat.exists_eq_add_of_le' (Nat.le_of_not_lt low)
      obtain ⟨was, moves⟩ := List.mem_filter.mp ((divided.higher p (by omega)).perm.subset mem)
      rw [placed p node was, if_neg (by simpa using moves)]
  · rw [get_of_length_le (by rw [divided.length]; omega)] at mem
    cases mem

/-- `Resize` doubles a table below its greatest length: every node once, in the bin of its hash, and
    found as before. A table of the greatest length is returned as it is. -/
theorem resize_keeps_nodes (rt : KeyRuntime α) (table : TaggedHashArray α) :
    (MAXIMUM_CAPACITY ≤ table.length → resize rt table table.length = .ok table) ∧
    ∀ k, table.length = 2 ^ k → table.length < MAXIMUM_CAPACITY → Placed table →
      DistinctTrees rt table →
      ∃ t, resize rt table table.length = .ok t ∧ t.length = 2 * table.length ∧
        Placed t ∧ t.nodes.Perm table.nodes ∧
        ∀ hash key, getNode rt t hash key = getNode rt table hash key := by
  refine ⟨fun full => if_pos full, fun k length small placed distinct => ?_⟩
  have below : k < 30 := by
    rw [length] at small
    exact (Nat.pow_lt_pow_iff_right (by decide)).mp small
  obtain ⟨t, run, divided⟩ := resize_divided length below placed distinct
  refine ⟨t, run, ?_, divided.placed length below placed, divided.perm length, fun hash key => ?_⟩
  · rw [divided.length, length, Nat.pow_succ']
  · obtain ⟨keep, half, kept⟩ := divided.bin length below hash
    rw [getNode_eq, getNode_eq]
    refine half.find_eq (fun isTree => ?_) kept key
    have inside : table.index hash < table.length := by
      rw [index_eq length (by omega), length]
      exact Nat.mod_lt _ (Nat.two_pow_pos k)
    exact distinct _ (List.mem_of_getElem? (get_eq inside)) isTree

/-! ## Tables of maps -/

/-- What `Placed` and `DistinctTrees` say of a table, bin by bin. -/
def placedBins (table : TaggedHashArray α) : Bool :=
  (List.range table.length).all fun i =>
    (table.get i).nodes.all fun node => table.index node.hash == i

theorem placed_of_bins (placed : table.placedBins = true) : Placed table := by
  intro i node mem
  by_cases inside : i < table.length
  · have bin := List.all_eq_true.mp placed i (List.mem_range.mpr inside)
    exact eq_of_beq (List.all_eq_true.mp bin node mem)
  · rw [get_of_length_le (Nat.le_of_not_lt inside)] at mem
    cases mem

instance [DecidableEq α] (rt : KeyRuntime α) (l : List (TaggedNode α)) :
    Decidable (DistinctKeys rt l) :=
  inferInstanceAs (Decidable (l.Pairwise fun x y => rt.sameValue x.key y.key = false))

def distinctTrees (rt : KeyRuntime α) [DecidableEq α] (table : TaggedHashArray α) : Bool :=
  table.bins.all fun bin => !bin.isTree || decide (DistinctKeys rt bin.nodes)

theorem distinctTrees_of_bins [DecidableEq α] (distinct : table.distinctTrees rt = true) :
    DistinctTrees rt table := by
  intro bin mem isTree
  have bin := List.all_eq_true.mp distinct bin mem
  rw [isTree] at bin
  exact of_decide_eq_true bin

theorem resize_keeps_nodes_sixteens :
    ∃ hashMap : JSAPIHashMap Unit, hashMap.Reachable RBTreeNode.numbered ∧
      (hashMap.table.get 0).isTree = true ∧
      ∃ t, resize RBTreeNode.numbered hashMap.table hashMap.table.length = .ok t ∧
        t.length = 2 * hashMap.table.length ∧ Placed t ∧ t.nodes.Perm hashMap.table.nodes ∧
        ∀ hash key, getNode RBTreeNode.numbered t hash key =
          getNode RBTreeNode.numbered hashMap.table hash key := by
  have facts : ((JSAPIHashMap.new.setKeys RBTreeNode.numbered (sixteens 9)).map fun hashMap =>
      (hashMap.table.length, (hashMap.table.get 0).isTree, hashMap.table.placedBins,
        hashMap.table.distinctTrees RBTreeNode.numbered)) = .ok (16, true, true, true) := by
    decide +kernel
  cases built : JSAPIHashMap.new.setKeys RBTreeNode.numbered (sixteens 9) with
  | error e =>
    rw [built] at facts
    cases facts
  | ok hashMap =>
    rw [built] at facts
    simp only [Except.map, Except.ok.injEq, Prod.mk.injEq] at facts
    obtain ⟨length, isTree, placed, distinct⟩ := facts
    refine ⟨hashMap, JSAPIHashMap.reachable_setKeys .new _ built, isTree, ?_⟩
    exact (resize_keeps_nodes RBTreeNode.numbered hashMap.table).2 4 length
      (by rw [length]; decide) (placed_of_bins placed) (distinctTrees_of_bins distinct)

/-- Integers as keys; ten in a row share a hash, and all of them a bin. -/
def tens : KeyRuntime Unit :=
  { RBTreeNode.numbered with
    hash := fun
      | .int i => Int32.ofInt (i / 10 * 32)
      | _ => 0 }

/-- The keys from 1 to 10, of which 7 and 4 are set again. -/
def setTwice : List (JSTaggedValue Unit) := [1, 2, 3, 4, 5, 6, 7, 8, 9, 10, 7, 4].map .int

/-- A table of the greatest length is not doubled. The second `Set` of a key may not find it in a tree
    with nodes of its hash, and add a node; `Resize` may lose that node. -/
theorem resize_loses_node :
    (∃ table : TaggedHashArray Unit, table = create (2 ^ 30) ∧ table.length = 2 ^ 30 ∧
      Placed table ∧ DistinctTrees tens table ∧
      ∀ t, resize tens table table.length = .ok t → t.length ≠ 2 * table.length) ∧
    ∃ hashMap : JSAPIHashMap Unit, JSAPIHashMap.new.setKeys tens setTwice = .ok hashMap ∧
      hashMap.Reachable tens ∧ hashMap.table.length = 16 ∧ Placed hashMap.table ∧
      ∃ t, resize tens hashMap.table hashMap.table.length = .ok t ∧ t.length = 32 ∧
        t.nodes.length < hashMap.table.nodes.length := by
  constructor
  · have length : (create (α := Unit) (2 ^ 30)).length = 2 ^ 30 := List.length_replicate ..
    refine ⟨_, rfl, length, ?_, ?_, ?_⟩
    · intro i node mem
      rw [get_create] at mem
      cases mem
    · intro bin mem isTree
      rw [List.eq_of_mem_replicate mem] at isTree
      cases isTree
    · intro t run
      rw [resize, length] at run
      obtain rfl := Except.ok.inj run
      rw [length]
      decide
  · have facts : ((JSAPIHashMap.new.setKeys tens setTwice).map fun hashMap =>
        (hashMap.table.length, hashMap.table.placedBins,
          (resize tens hashMap.table hashMap.table.length).map fun t =>
            (t.length, decide (t.nodes.length < hashMap.table.nodes.length)))) =
        .ok (16, true, .ok (32, true)) := by
      decide +kernel
    cases built : JSAPIHashMap.new.setKeys tens setTwice with
    | error e =>
      rw [built] at facts
      cases facts
    | ok hashMap =>
      rw [built] at facts
      simp only [Except.map, Except.ok.injEq, Prod.mk.injEq] at facts
      obtain ⟨length, placed, grown⟩ := facts
      refine ⟨hashMap, rfl, JSAPIHashMap.reachable_setKeys .new _ built, length,
        placed_of_bins placed, ?_⟩
      cases run : resize tens hashMap.table hashMap.table.length with
      | error e =>
        rw [run] at grown
        cases grown
      | ok t =>
        rw [run] at grown
        simp only [Except.ok.injEq, Prod.mk.injEq, decide_eq_true_eq] at grown
        exact ⟨t, rfl, grown⟩

end TaggedHashArray

end ArkRuntime
