import ArkRuntime.TaggedHash.Resize

/-!
# Storing a value under a key

`SetVal` gives the node of the key a new value or adds a node. In a tree it descends by the hashes, and
goes to the right of a node with the same hash; rotations may have put the node of the key on the left of
that one. The call then adds a second node.
-/

namespace ArkRuntime

open TaggedHashArray

variable {α : Type} {rt : KeyRuntime α}

/-- The node of the key gets the value, or a node is added. -/
inductive Put (rt : KeyRuntime α) (key value : JSTaggedValue α) (l l' : List (TaggedNode α)) :
    Bool → Prop
  | updated {node : TaggedNode α} {rest : List (TaggedNode α)} :
      rt.sameValue key node.key = true → l.Perm (node :: rest) →
      l'.Perm ({ node with value := value } :: rest) → Put rt key value l l' false
  | added : (∀ node ∈ l, rt.sameValue key node.key = false) →
      l'.Perm (⟨rt.hash key, key, value⟩ :: l) → Put rt key value l l' true

namespace Put

variable {key value : JSTaggedValue α} {l l' m m' : List (TaggedNode α)} {added : Bool}

theorem perm (stored : Put rt key value l l' added) (old : m.Perm l) (new : m'.Perm l') :
    Put rt key value m m' added := by
  cases stored with
  | updated same before after => exact .updated same (old.trans before) (new.trans after)
  | added absent after =>
    exact .added (fun node mem => absent node (old.subset mem)) (new.trans (after.trans (old.symm.cons _)))

/-- The nodes of the other bins. -/
theorem append (stored : Put rt key value l l' added) (rest : List (TaggedNode α))
    (others : added = true → ∀ node ∈ rest, rt.sameValue key node.key = false) :
    Put rt key value (l ++ rest) (l' ++ rest) added := by
  cases stored with
  | updated same before after =>
    exact .updated same (before.append_right rest) (after.append_right rest)
  | added absent after =>
    refine .added (fun node mem => ?_) (after.append_right rest)
    exact (List.mem_append.mp mem).elim (absent node) (others rfl node)

/-- A node has its hash and key from one that was there or from the call. -/
theorem origin (stored : Put rt key value l l' added) {node : TaggedNode α} (mem : node ∈ l') :
    (∃ old ∈ l, node.hash = old.hash ∧ node.key = old.key) ∨
      node.hash = rt.hash key ∧ node.key = key := by
  cases stored with
  | @updated first rest same before after =>
    rcases List.mem_cons.mp (after.subset mem) with rfl | mem
    · exact .inl ⟨first, before.symm.subset List.mem_cons_self, rfl, rfl⟩
    · exact .inl ⟨node, before.symm.subset (List.mem_cons_of_mem _ mem), rfl, rfl⟩
  | added absent after =>
    rcases List.mem_cons.mp (after.subset mem) with rfl | mem
    · exact .inr ⟨rfl, rfl⟩
    · exact .inl ⟨node, mem, rfl, rfl⟩

theorem length (stored : Put rt key value l l' added) : l'.length = l.length + added.toNat := by
  cases stored with
  | updated same before after =>
    rw [before.length_eq, after.length_eq]
    rfl
  | added absent after =>
    rw [after.length_eq]
    rfl

theorem distinct (stored : Put rt key value l l' added) (distinct : DistinctKeys rt l) :
    DistinctKeys rt l' := by
  cases stored with
  | @updated first rest same before after =>
    have again : DistinctKeys rt ({ first with value := value } :: rest) :=
      List.pairwise_cons.mpr (List.pairwise_cons.mp (distinct.perm before))
    exact again.perm after.symm
  | added absent after => exact DistinctKeys.perm (List.pairwise_cons.mpr ⟨absent, distinct⟩) after.symm

end Put

/-! ## Trees -/

namespace RBTreeNode

open ColorTree

variable {t t' l r : RBTreeNode α} {red : Bool} {a : TreeRecord α} {hash : Int32}
variable {key value : JSTaggedValue α} {c : Bool} {n : Nat}

/-- The nodes are in the order of their hashes; keys of one hash may be different. -/
def OrderedByHash (l : List (TaggedNode α)) : Prop := l.Pairwise fun x y => x.hash ≤ y.hash

theorem orderedByHash_node : OrderedByHash (nodes (.node l red a r)) ↔
    OrderedByHash (nodes l) ∧ OrderedByHash (nodes r) ∧ (∀ x ∈ nodes l, x.hash ≤ a.hash) ∧
      ∀ x ∈ nodes r, a.hash ≤ x.hash := by
  rw [nodes_node, OrderedByHash, List.pairwise_append, List.pairwise_cons]
  constructor
  · rintro ⟨left, ⟨above, right⟩, across⟩
    exact ⟨left, right, fun x mem => across x mem _ List.mem_cons_self, above⟩
  · rintro ⟨left, right, below, above⟩
    refine ⟨left, ⟨above, right⟩, fun x memX y memY => ?_⟩
    rcases List.mem_cons.mp memY with rfl | memY
    · exact below x memX
    · exact Int32.le_trans (below x memX) (above y memY)

/-- `Set` keeps the order of the hashes, whether it finds the key or not. -/
theorem set_ordered (run : set rt hash key value t = .ok t') (ordered : OrderedByHash (nodes t)) :
    OrderedByHash (nodes t') ∧ ∀ x ∈ nodes t', x.hash = hash ∨ ∃ y ∈ nodes t, x.hash = y.hash := by
  induction t generalizing t' with
  | nil =>
    cases run
    exact ⟨List.pairwise_singleton .., by simp⟩
  | node l red a r ihl ihr =>
    obtain ⟨orderedL, orderedR, below, above⟩ := orderedByHash_node.mp ordered
    rcases set_node run with ⟨-, same⟩ | ⟨-, less, l', inner, same⟩ | ⟨-, le, r', inner, same⟩
    · have whole : nodes t' = nodes (.node l red { a with value := value } r) := by
        rw [same, nodes_node]
      rw [whole]
      refine ⟨orderedByHash_node.mpr ⟨orderedL, orderedR, below, above⟩, fun x mem => .inr ?_⟩
      rw [nodes_node] at mem
      rcases List.mem_append.mp mem with mem | mem
      · exact ⟨x, by simp [mem], rfl⟩
      · rcases List.mem_cons.mp mem with rfl | mem
        · exact ⟨a.toTaggedNode, by simp, rfl⟩
        · exact ⟨x, by simp [mem], rfl⟩
    · obtain ⟨orderedL', origin⟩ := ihl inner orderedL
      have whole : nodes t' = nodes (.node l' red a r) := by rw [same, nodes_node]
      rw [whole]
      refine ⟨orderedByHash_node.mpr ⟨orderedL', orderedR, fun x mem => ?_, above⟩, fun x mem => ?_⟩
      · rcases origin x mem with rfl | ⟨y, memY, equal⟩
        · exact Int32.le_of_lt less
        · exact equal ▸ below y memY
      · rw [nodes_node] at mem
        rcases List.mem_append.mp mem with mem | mem
        · exact (origin x mem).imp_right fun ⟨y, memY, equal⟩ => ⟨y, by simp [memY], equal⟩
        · exact .inr ⟨x, by rw [nodes_node]; exact List.mem_append_right _ mem, rfl⟩
    · obtain ⟨orderedR', origin⟩ := ihr inner orderedR
      have whole : nodes t' = nodes (.node l red a r') := by rw [same, nodes_node]
      rw [whole]
      refine ⟨orderedByHash_node.mpr ⟨orderedL, orderedR', below, fun x mem => ?_⟩, fun x mem => ?_⟩
      · rcases origin x mem with rfl | ⟨y, memY, equal⟩
        · exact le
        · exact equal ▸ above y memY
      · rw [nodes_node] at mem
        rcases List.mem_append.mp mem with mem | mem
        · exact .inr ⟨x, by simp [mem], rfl⟩
        · rcases List.mem_cons.mp mem with rfl | mem
          · exact .inr ⟨a.toTaggedNode, by simp, rfl⟩
          · exact (origin x mem).imp_right fun ⟨y, memY, equal⟩ => ⟨y, by simp [memY], equal⟩

/-- A tree has a node with the key. -/
def contains (rt : KeyRuntime α) (key : JSTaggedValue α) (t : RBTreeNode α) : Bool :=
  (nodes t).any fun node => rt.sameValue key node.key

/-- The node of the key stands on the left of a node with the same hash. -/
def isLeftOfEqual (rt : KeyRuntime α) (hash : Int32) (key : JSTaggedValue α) :
    RBTreeNode α → Bool
  | .nil => false
  | .node l _ a r =>
    (a.hash == hash && contains rt key l) || isLeftOfEqual rt hash key l || isLeftOfEqual rt hash key r

theorem contains_eq_true : contains rt key t = true ↔
    ∃ node ∈ nodes t, rt.sameValue key node.key = true := List.any_eq_true

theorem contains_eq_false : contains rt key t = false ↔
    ∀ node ∈ nodes t, rt.sameValue key node.key = false := by
  simp [contains]

theorem contains_of_isLeftOfEqual (left : isLeftOfEqual rt hash key t = true) :
    contains rt key t = true := by
  induction t with
  | nil => cases left
  | node l red a r ihl ihr =>
    have inside (node : TaggedNode α) (mem : node ∈ nodes l ∨ node ∈ nodes r)
        (same : rt.sameValue key node.key = true) : contains rt key (.node l red a r) = true := by
      refine contains_eq_true.mpr ⟨node, ?_, same⟩
      rw [nodes_node]
      exact mem.elim (List.mem_append_left _) fun mem => List.mem_append_right _ (List.mem_cons_of_mem _ mem)
    rw [isLeftOfEqual, Bool.or_eq_true, Bool.or_eq_true, Bool.and_eq_true] at left
    rcases left with (⟨-, here⟩ | left) | right
    · obtain ⟨node, mem, same⟩ := contains_eq_true.mp here
      exact inside node (.inl mem) same
    · obtain ⟨node, mem, same⟩ := contains_eq_true.mp (ihl left)
      exact inside node (.inl mem) same
    · obtain ⟨node, mem, same⟩ := contains_eq_true.mp (ihr right)
      exact inside node (.inr mem) same

/-- Keys on the two sides of a node are different from each other and from its key. -/
theorem sides_distinct (key : JSTaggedValue α)
    (distinct : DistinctKeys rt (nodes (.node l red a r))) :
    DistinctKeys rt (nodes l) ∧ DistinctKeys rt (nodes r) ∧
      (rt.sameValue key a.key = true → contains rt key l = false ∧ contains rt key r = false) ∧
      (contains rt key l = true → contains rt key r = false) := by
  rw [nodes_node, DistinctKeys, List.pairwise_append, List.pairwise_cons] at distinct
  obtain ⟨left, ⟨above, right⟩, across⟩ := distinct
  have differ {x y : TaggedNode α} (other : rt.sameValue x.key y.key = false)
      (same : rt.sameValue key x.key = true) : rt.sameValue key y.key = false := by
    by_contra also
    have both := rt.trans _ _ _ (rt.symm _ _ same) (Bool.eq_true_of_not_eq_false also)
    rw [other] at both
    cases both
  refine ⟨left, right, fun here => ⟨?_, ?_⟩, fun inLeft => ?_⟩
  · refine contains_eq_false.mpr fun x mem => differ ?_ here
    rw [rt.sameValue_comm]
    exact across x mem a.toTaggedNode List.mem_cons_self
  · exact contains_eq_false.mpr fun x mem => differ (above x mem) here
  · obtain ⟨x, memX, same⟩ := contains_eq_true.mp inLeft
    exact contains_eq_false.mpr fun y memY =>
      differ (across x memX y (List.mem_cons_of_mem _ memY)) same

/-- The nodes with the key have its hash. -/
def HashedAs (rt : KeyRuntime α) (hash : Int32) (key : JSTaggedValue α) (l : List (TaggedNode α)) :
    Prop :=
  ∀ node ∈ l, rt.sameValue key node.key = true → node.hash = hash

theorem HashedAs.sides (hashed : HashedAs rt hash key (nodes (.node l red a r))) :
    HashedAs rt hash key (nodes l) ∧ HashedAs rt hash key (nodes r) := by
  rw [nodes_node] at hashed
  exact ⟨fun x mem => hashed x (List.mem_append_left _ mem),
    fun x mem => hashed x (List.mem_append_right _ (List.mem_cons_of_mem _ mem))⟩

theorem HashedAs.of_contains (hashed : HashedAs rt hash key (nodes t))
    (inside : contains rt key t = true) : ∃ node ∈ nodes t, node.hash = hash := by
  obtain ⟨node, mem, same⟩ := contains_eq_true.mp inside
  exact ⟨node, mem, hashed node mem same⟩

theorem contains_node : contains rt key (.node l red a r) =
    (contains rt key l || (rt.sameValue key a.key || contains rt key r)) := by
  rw [contains, nodes_node, List.any_append, List.any_cons]
  rfl

/-- `Set` stores the value if the node of the key is not on the left of one with the same hash. -/
theorem set_stored (run : set rt (rt.hash key) key value t = .ok t')
    (ordered : OrderedByHash (nodes t)) (distinct : DistinctKeys rt (nodes t))
    (hashed : HashedAs rt (rt.hash key) key (nodes t))
    (found : isLeftOfEqual rt (rt.hash key) key t = false) :
    Put rt key value (nodes t) (nodes t') !contains rt key t := by
  induction t generalizing t' with
  | nil =>
    cases run
    exact .added nofun (List.Perm.refl _)
  | node l red a r ihl ihr =>
    obtain ⟨orderedL, orderedR, below, above⟩ := orderedByHash_node.mp ordered
    obtain ⟨distinctL, distinctR, -, -⟩ := sides_distinct key distinct
    obtain ⟨hashedL, hashedR⟩ := hashed.sides
    rw [isLeftOfEqual, Bool.or_eq_false_iff, Bool.or_eq_false_iff, Bool.and_eq_false_iff] at found
    obtain ⟨⟨notHere, foundL⟩, foundR⟩ := found
    rw [contains_node]
    rcases set_node run with ⟨here, same⟩ | ⟨other, less, l', inner, same⟩ | ⟨other, le, r', inner, same⟩
    · rw [here, Bool.true_or, Bool.or_true, same, nodes_node]
      exact .updated here List.perm_middle List.perm_middle
    · have absent : contains rt key r = false := by
        by_contra inside
        obtain ⟨node, mem, equal⟩ := hashedR.of_contains (Bool.eq_true_of_not_eq_false inside)
        exact Int32.lt_irrefl (Int32.lt_of_lt_of_le (equal ▸ less) (above node mem))
      rw [other, absent, Bool.or_false, Bool.or_false, same, nodes_node]
      refine (ihl inner orderedL distinctL hashedL foundL).append _ fun _ node mem => ?_
      rcases List.mem_cons.mp mem with rfl | mem
      · exact other
      · exact contains_eq_false.mp absent node mem
    · have absent : contains rt key l = false := by
        by_contra inside
        have inside := Bool.eq_true_of_not_eq_false inside
        obtain ⟨node, mem, equal⟩ := hashedL.of_contains inside
        have equal : a.hash = rt.hash key := Int32.le_antisymm le (equal ▸ below node mem)
        rw [inside, equal, beq_self_eq_true] at notHere
        exact notHere.elim nofun nofun
      rw [other, absent, Bool.false_or, Bool.false_or, same, nodes_node]
      have stored := ihr inner orderedR distinctR hashedR foundR
      refine (stored.append (nodes l ++ [a.toTaggedNode]) fun _ node mem => ?_).perm ?_ ?_
      · rcases List.mem_append.mp mem with mem | mem
        · exact contains_eq_false.mp absent node mem
        · rw [List.mem_singleton.mp mem]
          exact other
      · rw [List.append_cons]
        exact List.perm_append_comm
      · rw [List.append_cons]
        exact List.perm_append_comm

/-- Otherwise it adds a second node. -/
theorem set_misses (run : set rt (rt.hash key) key value t = .ok t')
    (ordered : OrderedByHash (nodes t)) (distinct : DistinctKeys rt (nodes t))
    (hashed : HashedAs rt (rt.hash key) key (nodes t))
    (missed : isLeftOfEqual rt (rt.hash key) key t = true) :
    (nodes t').Perm (⟨rt.hash key, key, value⟩ :: nodes t) := by
  induction t generalizing t' with
  | nil => cases missed
  | node l red a r ihl ihr =>
    obtain ⟨orderedL, orderedR, below, above⟩ := orderedByHash_node.mp ordered
    obtain ⟨distinctL, distinctR, alone, apart⟩ := sides_distinct key distinct
    obtain ⟨hashedL, hashedR⟩ := hashed.sides
    have inside : contains rt key l = true ∨ contains rt key r = true := by
      have inside := contains_of_isLeftOfEqual missed
      rw [contains_node, Bool.or_eq_true, Bool.or_eq_true] at inside
      rcases inside with left | here | right
      · exact .inl left
      · obtain ⟨notLeft, notRight⟩ := alone here
        rw [isLeftOfEqual, notLeft, Bool.and_false, Bool.false_or, Bool.or_eq_true] at missed
        exact missed.imp contains_of_isLeftOfEqual contains_of_isLeftOfEqual
      · exact .inr right
    rcases set_node run with ⟨here, -⟩ | ⟨other, less, l', inner, same⟩ | ⟨other, le, r', inner, same⟩
    · obtain ⟨notLeft, notRight⟩ := alone here
      rw [notLeft, notRight] at inside
      exact inside.elim nofun nofun
    · have notRight : contains rt key r = false := by
        by_contra inRight
        obtain ⟨node, mem, equal⟩ := hashedR.of_contains (Bool.eq_true_of_not_eq_false inRight)
        exact Int32.lt_irrefl (Int32.lt_of_lt_of_le (equal ▸ less) (above node mem))
      have missedL : isLeftOfEqual rt (rt.hash key) key l = true := by
        have notEqual : (a.hash == rt.hash key) = false := beq_false_of_ne (Int32.ne_of_lt less).symm
        have none : isLeftOfEqual rt (rt.hash key) key r = false := by
          by_contra some
          have inRight := contains_of_isLeftOfEqual (Bool.eq_true_of_not_eq_false some)
          rw [notRight] at inRight
          cases inRight
        rwa [isLeftOfEqual, notEqual, none, Bool.false_and, Bool.false_or, Bool.or_false] at missed
      rw [same, nodes_node]
      exact (ihl inner orderedL distinctL hashedL missedL).append_right _
    · have added : (nodes r').Perm (⟨rt.hash key, key, value⟩ :: nodes r) := by
        cases notRight : contains rt key r with
        | false => exact (set_absent rt _ key value inner (contains_eq_false.mp notRight)).2
        | true =>
          have notLeft : contains rt key l = false := by
            by_contra inLeft
            have absent := apart (Bool.eq_true_of_not_eq_false inLeft)
            rw [notRight] at absent
            cases absent
          have none : isLeftOfEqual rt (rt.hash key) key l = false := by
            by_contra some
            have inLeft := contains_of_isLeftOfEqual (Bool.eq_true_of_not_eq_false some)
            rw [notLeft] at inLeft
            cases inLeft
          rw [isLeftOfEqual, notLeft, none, Bool.and_false, Bool.false_or, Bool.false_or] at missed
          exact ihr inner orderedR distinctR hashedR missed
      rw [same, nodes_node]
      exact ((added.cons _).append_left _).trans
        (((List.Perm.swap _ _ _).append_left _).trans List.perm_middle)

/-- The trees of the bins, whatever the hashes are. -/
structure BinTree (t : RBTreeNode α) : Prop where
  leaning : ∃ n, LeftLeaning false n t
  ordered : OrderedByHash (nodes t)
  counted : Counted t

theorem binTree_nil : BinTree (.nil : RBTreeNode α) := ⟨⟨0, .nil⟩, List.Pairwise.nil, trivial⟩

/-- `Set` on a whole tree always returns. -/
theorem setRoot_tree (rt : KeyRuntime α) (tree : BinTree t) (node : TaggedNode α) :
    ∃ t', set rt node.hash node.key node.value t = .ok t' ∧
      setRoot rt t node = .ok t'.setBlack ∧ BinTree t'.setBlack := by
  obtain ⟨n, leaning⟩ := tree.leaning
  obtain ⟨t', run, leaves⟩ := set_leaning rt node.hash node.key node.value leaning
  obtain ⟨t'', run', -, counted, -⟩ := set_spec rt node.hash node.key node.value t
  obtain rfl : t' = t'' := Except.ok.inj (run.symm.trans run')
  obtain ⟨c, leaning'⟩ := leaves.of_black
  refine ⟨t', run, by rw [setRoot, run]; rfl, leaning'.blacken, ?_, (counted tree.counted).setBlack⟩
  rw [nodes_setBlack]
  exact (set_ordered run tree.ordered).1

theorem treeing_tree (rt : KeyRuntime α) (head : List (TaggedNode α)) :
    ∃ t, treeing rt head = .ok t ∧ BinTree t := by
  have go : ∀ (rest : List (TaggedNode α)) (t : RBTreeNode α), BinTree t →
      ∃ t', rest.foldlM (setRoot rt) t = .ok t' ∧ BinTree t' := by
    intro rest
    induction rest with
    | nil => exact fun t tree => ⟨t, rfl, tree⟩
    | cons node rest ih =>
      intro t tree
      obtain ⟨t1, -, run, tree1⟩ := setRoot_tree rt tree node
      rw [List.foldlM_cons, run]
      exact ih _ tree1
  exact go head .nil binTree_nil

/-! ### `SetValue` on a node -/

/-- The node of a way gets the value; the tree is the same otherwise. -/
theorem setValueAt_nodes (value : JSTaggedValue α) {way : List Side} {visited : List Side × TreeRecord α}
    (mem : visited ∈ (paths way t).toList) : ∃ rest, visited.1 = way ++ rest ∧
      ∃ before after, nodes t = before ++ visited.2.toTaggedNode :: after ∧
        nodes (setValueAt value rest t) =
          before ++ { visited.2.toTaggedNode with value := value } :: after := by
  induction t generalizing way with
  | nil => cases mem
  | node l red a r ihl ihr =>
    rw [paths, toList, List.mem_append, List.mem_cons] at mem
    rcases mem with left | rfl | right
    · obtain ⟨rest, same, before, after, split, split'⟩ := ihl left
      refine ⟨.left :: rest, by rw [same, List.append_assoc]; rfl,
        before, after ++ a.toTaggedNode :: nodes r, ?_, ?_⟩
      · rw [nodes_node, split, List.append_assoc, List.cons_append]
      · rw [setValueAt, nodes_node, split', List.append_assoc, List.cons_append]
    · exact ⟨[], (List.append_nil way).symm, nodes l, nodes r, nodes_node, nodes_node⟩
    · obtain ⟨rest, same, before, after, split, split'⟩ := ihr right
      refine ⟨.right :: rest, by rw [same, List.append_assoc]; rfl,
        nodes l ++ a.toTaggedNode :: before, after, ?_, ?_⟩
      · rw [nodes_node, split, List.append_assoc, List.cons_append]
      · rw [setValueAt, nodes_node, split', List.append_assoc, List.cons_append]

theorem setValueAt_hashes (value : JSTaggedValue α) (way : List Side) (t : RBTreeNode α) :
    (nodes (setValueAt value way t)).map TaggedNode.hash = (nodes t).map TaggedNode.hash := by
  induction t generalizing way with
  | nil => cases way <;> rfl
  | node l red a r ihl ihr =>
    cases way with
    | nil => simp [setValueAt]
    | cons side way => cases side <;> simp [setValueAt, ihl, ihr]

theorem setValueAt_counted (way : List Side) (counted : Counted t) :
    Counted (setValueAt value way t) := by
  have sizes (way : List Side) (t : RBTreeNode α) : size (setValueAt value way t) = size t := by
    simpa [size] using congrArg List.length (setValueAt_hashes value way t)
  induction t generalizing way with
  | nil => cases way <;> exact counted
  | node l red a r ihl ihr =>
    cases way with
    | nil => exact counted
    | cons side way =>
      cases side with
      | left => exact ⟨by rw [sizes]; exact counted.1, ihl way counted.2.1, counted.2.2⟩
      | right => exact ⟨by rw [sizes]; exact counted.1, counted.2.1, ihr way counted.2.2⟩

theorem setValueAt_leaning (way : List Side) (leaning : LeftLeaning c n t) :
    LeftLeaning c n (setValueAt value way t) := by
  induction leaning generalizing way with
  | nil => cases way <;> exact .nil
  | red left right ihl ihr =>
    cases way with
    | nil => exact .red left right
    | cons side way =>
      cases side with
      | left => exact .red (ihl way) right
      | right => exact .red left (ihr way)
  | black left right ihl ihr =>
    cases way with
    | nil => exact .black left right
    | cons side way =>
      cases side with
      | left => exact .black (ihl way) right
      | right => exact .black left (ihr way)

theorem setValueAt_tree (way : List Side) (tree : BinTree t) : BinTree (setValueAt value way t) where
  leaning := tree.leaning.imp fun _ leaning => setValueAt_leaning way leaning
  ordered := by
    have ordered := tree.ordered
    rw [OrderedByHash, ← List.pairwise_map (f := TaggedNode.hash) (R := fun x y => x ≤ y)] at ordered ⊢
    rwa [setValueAt_hashes]
  counted := setValueAt_counted way tree.counted

end RBTreeNode

end ArkRuntime
