import ArkRuntime.TaggedHash.Insert

/-!
# `Delete` of a key that is not in the tree

It runs off a leaf: whatever the colours are, the call ends by reading a field of a Hole.
-/

namespace ArkRuntime

namespace RBTreeNode

open ColorTree

variable {α : Type} {t t' : RBTreeNode α} {rt : KeyRuntime α} {hash : Int32}
variable {key : JSTaggedValue α}

/-- The call reads a field of a Hole, or it puts a rearranged tree in the place of `t`. -/
def HoleOrRearranged (t : RBTreeNode α) (call : Except TreeFault (RBTreeNode α)) : Prop :=
  call = .error .hole ∨ ∃ t', call = .ok t' ∧ Rearranged t t'

theorem rotateLeft_cases (t : RBTreeNode α) : HoleOrRearranged t (rotateLeft t) := by
  unfold rotateLeft
  split
  · exact .inr ⟨_, rfl, rotateLeft_rearranged rfl⟩
  · exact .inl rfl

theorem rotateRight_cases (t : RBTreeNode α) : HoleOrRearranged t (rotateRight t) := by
  unfold rotateRight
  split
  · exact .inr ⟨_, rfl, rotateRight_rearranged rfl⟩
  · exact .inl rfl

theorem flipColors_cases (t : RBTreeNode α) : HoleOrRearranged t (flipColors t) := by
  unfold flipColors
  split
  · exact .inr ⟨_, rfl, flipColors_rearranged rfl⟩
  · exact .inl rfl

theorem HoleOrRearranged.bind {call : Except TreeFault (RBTreeNode α)}
    {next : RBTreeNode α → Except TreeFault (RBTreeNode α)} (first : HoleOrRearranged t call)
    (second : ∀ t', Rearranged t t' → HoleOrRearranged t' (next t')) :
    HoleOrRearranged t (call >>= next) := by
  obtain rfl | ⟨t1, rfl, step1⟩ := first
  · exact .inl rfl
  · obtain fault | ⟨t2, run, step2⟩ := second t1 step1
    · exact .inl fault
    · exact .inr ⟨t2, run, step1.trans step2⟩

theorem moveRedRight_cases (t : RBTreeNode α) : HoleOrRearranged t (moveRedRight t) := by
  refine (flipColors_cases t).bind fun t1 step => ?_
  obtain ⟨l, red, a, r, rfl⟩ := exists_node step.ne_nil
  cases l with
  | nil => exact .inl rfl
  | node ll lred la lr =>
    change HoleOrRearranged _ (if ll.isRed = true then rotateRight _ >>= flipColors else .ok _)
    split
    · exact (rotateRight_cases _).bind fun t2 _ => flipColors_cases t2
    · exact .inr ⟨_, rfl, .refl nofun⟩

theorem moveRedLeft_cases (t : RBTreeNode α) : HoleOrRearranged t (moveRedLeft t) := by
  refine (flipColors_cases t).bind fun t1 step => ?_
  obtain ⟨l, red, a, r, rfl⟩ := exists_node step.ne_nil
  cases r with
  | nil => exact .inl rfl
  | node rl rred ra rr =>
    change HoleOrRearranged _ (if rl.isRed = true then rotateRight _ >>= fun rightChild =>
      setRight rightChild _ >>= fun treeNode => rotateLeft treeNode >>= flipColors else .ok _)
    split
    · obtain fault | ⟨r', run, turned⟩ := rotateRight_cases (.node rl rred ra rr)
      · rw [fault]
        exact .inl rfl
      · rw [run]
        obtain fault | ⟨t2, run2, moved⟩ :=
          (rotateLeft_cases (.node l red a r')).bind fun t2 _ => flipColors_cases t2
        · exact .inl fault
        · exact .inr ⟨t2, run2, turned.setRight.trans moved⟩
    · exact .inr ⟨_, rfl, .refl nofun⟩

/-! ## Absent keys -/

/-- No node of the tree has the key. -/
def Absent (rt : KeyRuntime α) (key : JSTaggedValue α) (t : RBTreeNode α) : Prop :=
  ∀ node ∈ nodes t, rt.sameValue key node.key = false

theorem node_ne_nil {l r : RBTreeNode α} {red : Bool} {a : TreeRecord α} :
    (.node l red a r : RBTreeNode α) ≠ .nil := nofun

theorem isTwoNode_cases (child : RBTreeNode α) : isTwoNode child = .error .hole ∨
    child ≠ .nil ∧ ∃ twoNode, isTwoNode child = .ok twoNode := by
  cases child with
  | nil => exact .inl rfl
  | node l red a r =>
    refine .inr ⟨nofun, ?_⟩
    cases red with
    | true => exact ⟨false, rfl⟩
    | false => exact ⟨!l.isRed, rfl⟩

theorem redToLeft_cases (real : t ≠ .nil) : HoleOrRearranged t (redToLeft t) := by
  obtain ⟨l, red, a, r, rfl⟩ := exists_node real
  rw [redToLeft, getLeft, ok_bind]
  obtain fault | ⟨-, twoNode, run⟩ := isTwoNode_cases l
  · rw [fault]
    exact .inl rfl
  · rw [run, ok_bind]
    split
    · exact moveRedLeft_cases _
    · exact .inr ⟨_, rfl, .refl node_ne_nil⟩

theorem redToRight_cases (real : t ≠ .nil) : HoleOrRearranged t (redToRight t) := by
  obtain ⟨l, red, a, r, rfl⟩ := exists_node real
  rw [redToRight, getRight, ok_bind]
  obtain fault | ⟨-, twoNode, run⟩ := isTwoNode_cases r
  · rw [fault]
    exact .inl rfl
  · rw [run, ok_bind]
    split
    · exact moveRedRight_cases _
    · exact .inr ⟨_, rfl, .refl node_ne_nil⟩

theorem leanRight_cases (real : t ≠ .nil) : HoleOrRearranged t (leanRight t) := by
  obtain ⟨l, red, a, r, rfl⟩ := exists_node real
  rw [leanRight, getLeft, ok_bind]
  split
  · exact rotateRight_cases _
  · exact .inr ⟨_, rfl, .refl node_ne_nil⟩

theorem compare_ne_zero {node : TaggedNode α} (absent : rt.sameValue key node.key = false) :
    compare rt hash key node.hash node.key ≠ 0 := by
  rw [compare, absent, if_neg Bool.false_ne_true]
  split_ifs <;> decide

theorem Absent.of_nodes (absent : Absent rt key t) (same : nodes t' = nodes t) :
    Absent rt key t' := by
  rw [Absent, same]
  exact absent

theorem Absent.left {l r : RBTreeNode α} {red : Bool} {a : TreeRecord α}
    (absent : Absent rt key (.node l red a r)) : Absent rt key l := fun node mem =>
  absent node (by rw [nodes_node]; exact List.mem_append_left _ mem)

theorem Absent.right {l r : RBTreeNode α} {red : Bool} {a : TreeRecord α}
    (absent : Absent rt key (.node l red a r)) : Absent rt key r := fun node mem =>
  absent node (by
    rw [nodes_node]
    exact List.mem_append_right _ (List.mem_cons_of_mem _ mem))

theorem Absent.root {l r : RBTreeNode α} {red : Bool} {a : TreeRecord α}
    (absent : Absent rt key (.node l red a r)) : compare rt hash key a.hash a.key ≠ 0 :=
  compare_ne_zero (absent a.toTaggedNode (by
    rw [nodes_node]
    exact List.mem_append_right _ List.mem_cons_self))

/-- `Delete` of an absent key reads a field of a Hole. -/
theorem delete_absent : ∀ (fuel : Nat) (t : RBTreeNode α), size t < fuel → Absent rt key t →
    delete rt hash key fuel t = .error .hole := by
  intro fuel
  induction fuel with
  | zero => exact fun t small => absurd small (Nat.not_lt_zero _)
  | succ fuel ih =>
    intro t small absent
    cases t with
    | nil => rfl
    | node l red a r =>
      rw [delete, record, ok_bind]
      split
      · obtain fault | ⟨t1, run1, step⟩ := redToLeft_cases (t := .node l red a r) nofun
        · rw [fault, error_bind]
        obtain ⟨l1, red1, a1, r1, rfl⟩ := exists_node step.ne_nil
        have less := step.size
        rw [size_node] at less
        rw [run1, ok_bind, getLeft, ok_bind,
          ih l1 (by omega) (absent.of_nodes step.nodes).left, error_bind]
      · obtain fault | ⟨t1, run1, step1⟩ := leanRight_cases (t := .node l red a r) nofun
        · rw [fault, error_bind]
        obtain ⟨l1, red1, a1, r1, rfl⟩ := exists_node step1.ne_nil
        have other1 : compare rt hash key a1.hash a1.key ≠ 0 := (absent.of_nodes step1.nodes).root
        rw [run1, ok_bind, deleteRight, record, ok_bind, getRight, ok_bind,
          if_neg fun both => other1 both.1]
        obtain fault | ⟨t2, run2, step2⟩ := redToRight_cases (t := .node l1 red1 a1 r1) nofun
        · rw [fault, error_bind]
        obtain ⟨l2, red2, a2, r2, rfl⟩ := exists_node step2.ne_nil
        have absent2 := absent.of_nodes (step1.trans step2).nodes
        have less := (step1.trans step2).size
        rw [size_node] at less
        rw [run2, ok_bind, record, ok_bind, getRight, ok_bind, if_neg absent2.root,
          ih r2 (by omega) absent2.right, error_bind]

end RBTreeNode

end ArkRuntime

/-!
## `DeleteMin`

Where `MoveRedLeft` borrows from the right child, another node takes the place of `treeNode`, and its
left child is replaced by what is left of the old left child: the old `treeNode` is lost. `SpineKept`
says that this happens at no node on the left spine.
-/

namespace ArkRuntime

namespace RBTreeNode

open ColorTree

variable {α : Type} {t t' l r : RBTreeNode α} {a : TreeRecord α} {red c : Bool} {n : Nat}

/-- `IsRed(GetLeft())`. -/
def leftIsRed : RBTreeNode α → Bool
  | .nil => false
  | .node l _ _ _ => l.isRed

/-- On the left spine, beside a left child that is black and has a black left child there is no
    right child with a red left child. -/
def spineKept : RBTreeNode α → Bool
  | .nil => true
  | .node l _ _ r => (isHole l || l.isRed || leftIsRed l || !leftIsRed r) && spineKept l

theorem spineKept_flip (t : RBTreeNode α) : spineKept t.flip = spineKept t := by
  cases t <;> rfl

@[simp] theorem size_flip (t : RBTreeNode α) : size t.flip = size t :=
  congrArg List.length (nodes_flip t)

/-- The children lean as they should, to the left only. -/
def ReadyMin (t : RBTreeNode α) : Prop :=
  ∃ l red a r c n, t = .node l red a r ∧ LeftLeaning c n l ∧ LeftLeaning false n r

theorem readyMin_of_leaning (leaning : LeftLeaning c n t) (real : t ≠ .nil) : ReadyMin t := by
  obtain ⟨l, red, a, r, rfl⟩ := exists_node real
  obtain ⟨m, c', left, right⟩ := leaning.children
  exact ⟨l, red, a, r, c', m, rfl, left, right⟩

theorem ReadyMin.flip (ready : ReadyMin t) : ReadyMin t.flip := by
  obtain ⟨l, red, a, r, c, n, rfl, left, right⟩ := ready
  exact ⟨l, _, a, r, c, n, rfl, left, right⟩

/-- What `DeleteMin` returns: the first node is removed, or more nodes are. -/
def MinDeleted (t t' : RBTreeNode α) : Prop :=
  (CountedBelow t → Counted t') ∧
    if spineKept t then nodes t' = (nodes t).tail else size t' + 1 < size t

theorem MinDeleted.size_lt (deleted : MinDeleted t t') (real : t ≠ .nil) : size t' < size t := by
  obtain ⟨-, nodes⟩ := deleted
  split at nodes
  · obtain ⟨l, red, a, r, rfl⟩ := exists_node real
    rw [size, nodes, size, List.length_tail, nodes_node, List.length_append, List.length_cons]
    omega
  · omega

/-- The minimum of the left child is deleted; the right child may have another colour. -/
theorem minDeleted_left {l' : RBTreeNode α} (red red' : Bool) (a : TreeRecord α)
    (r r' : RBTreeNode α) (deleted : MinDeleted l l') (real : l ≠ .nil)
    (kept : spineKept (.node l red a r) = spineKept l)
    (sameR : nodes r' = nodes r) (countedR : Counted r → Counted r') :
    ∃ t', balance (.node l' red' a r') = .ok t' ∧ MinDeleted (.node l red a r) t' := by
  obtain ⟨t', run, -, same, counted⟩ := balance_spec (t := .node l' red' a r') nofun
  rw [nodes_node, sameR] at same
  refine ⟨t', run, fun below => counted ⟨deleted.1 below.1.below, countedR below.2⟩, ?_⟩
  have nodesL := deleted.2
  rw [kept]
  split
  · rename_i keptL
    rw [if_pos keptL] at nodesL
    obtain ⟨x, l1, eq⟩ : ∃ x l1, nodes l = x :: l1 := by
      cases eq : nodes l with
      | nil =>
        obtain ⟨ll, lred, la, lr, rfl⟩ := exists_node real
        simp at eq
      | cons x l1 => exact ⟨x, l1, rfl⟩
    rw [same, nodes_node, nodesL, eq]
    rfl
  · rename_i lost
    rw [if_neg lost] at nodesL
    rw [size, same, List.length_append, List.length_cons, size_node]
    simp only [size] at nodesL ⊢
    omega

theorem minDeleted_flip (deleted : MinDeleted l.flip t') : MinDeleted l t' := by
  obtain ⟨counted, nodes⟩ := deleted
  rw [spineKept_flip, nodes_flip, size_flip] at nodes
  refine ⟨fun below => counted ?_, nodes⟩
  cases l with
  | nil => trivial
  | node ll red a lr => exact below

/-- The result of `MoveRedLeft` when the right child has a red left child `b`. -/
def borrowed (l : RBTreeNode α) (red : Bool) (a : TreeRecord α) (x : RBTreeNode α) (b : TreeRecord α)
    (y : RBTreeNode α) (ra : TreeRecord α) (rr : RBTreeNode α) : RBTreeNode α :=
  .node (.node l.flip false { a with count := count l.flip + count x + 1 } x) (!(!red))
    { b with count := a.count } (.node y false { ra with count := count y + count rr + 1 } rr)

/-- The old root and `x` are lost with the left child that is replaced. -/
theorem minDeleted_lost {l' : RBTreeNode α} (red : Bool) (a : TreeRecord α) (x : RBTreeNode α)
    (b : TreeRecord α) (y : RBTreeNode α) (ra : TreeRecord α) (rr : RBTreeNode α)
    (deleted : MinDeleted l l') (real : l ≠ .nil) (black : l.isRed = false)
    (leftBlack : leftIsRed l = false) :
    ∃ t', balance (.node l' (!(!red)) { b with count := a.count }
        (.node y false { ra with count := count y + count rr + 1 } rr)) = .ok t' ∧
      MinDeleted (.node l red a (.node (.node x true b y) false ra rr)) t' := by
  obtain ⟨t', run, -, same, counted⟩ := balance_spec (t := .node l' (!(!red))
    { b with count := a.count } (.node y false { ra with count := count y + count rr + 1 } rr)) nofun
  have less := deleted.size_lt real
  have lost : spineKept (.node l red a (.node (.node x true b y) false ra rr)) = false := by
    have right : leftIsRed (.node (.node x true b y) false ra rr) = true := rfl
    rw [spineKept, isHole_of_ne_nil real, black, leftBlack, right]
    rfl
  have sizes := congrArg List.length same
  refine ⟨t', run, fun below => counted ?_, ?_⟩
  · obtain ⟨countedL, -, ⟨-, -, countedY⟩, countedR⟩ := below
    exact ⟨deleted.1 countedL.below, sum_counts countedY countedR, countedY, countedR⟩
  · change size t' = size (.node l' _ _ _) at sizes
    rw [lost, if_neg Bool.false_ne_true, sizes]
    simp only [size_node]
    omega

/-- `DeleteMin` removes the first node, if `SpineKept`; otherwise it loses others too. -/
theorem deleteMin_spec : ∀ (fuel : Nat) (t : RBTreeNode α), size t ≤ fuel → ReadyMin t →
    ∃ t', deleteMin fuel t = .ok t' ∧ MinDeleted t t' := by
  intro fuel
  induction fuel with
  | zero =>
    intro t small ready
    obtain ⟨l, red, a, r, c, n, rfl, -, -⟩ := ready
    rw [size_node] at small
    omega
  | succ fuel ih =>
    intro t small ready
    obtain ⟨l, red, a, r, c, n, rfl, left, right⟩ := ready
    rw [deleteMin, getLeft, ok_bind]
    cases l with
    | nil =>
      obtain ⟨-, rfl⟩ := left.height_eq_zero
      obtain rfl := right.eq_nil
      exact ⟨.nil, rfl, fun _ => trivial, by simp [spineKept, isHole]⟩
    | node ll lred la lr =>
      have readyL : ReadyMin (.node ll lred la lr) := readyMin_of_leaning left node_ne_nil
      rw [size_node] at small
      cases lred with
      | true =>
        obtain ⟨l', run, deleted⟩ := ih (.node ll true la lr) (by omega) readyL
        have twoNode : isTwoNode (.node ll true la lr) = .ok false := rfl
        obtain ⟨t', balanced, result⟩ := minDeleted_left red red a r r
          deleted node_ne_nil (by simp [spineKept, isRed]) rfl id
        simp only [twoNode, ok_bind, Bool.false_eq_true, if_false, run, setLeft]
        exact ⟨t', balanced, result⟩
      | false =>
        have twoNode : isTwoNode (.node ll false la lr) = .ok (!ll.isRed) := rfl
        cases leftRed : ll.isRed with
        | true =>
          obtain ⟨l', run, deleted⟩ := ih (.node ll false la lr) (by omega) readyL
          obtain ⟨t', balanced, result⟩ := minDeleted_left red red a r r deleted node_ne_nil
            (by simp [spineKept, leftIsRed, leftRed]) rfl id
          simp only [twoNode, leftRed, ok_bind, Bool.not_true, Bool.false_eq_true, if_false, run,
            setLeft]
          exact ⟨t', balanced, result⟩
        | false =>
          obtain ⟨-, m, c', rfl, -, -⟩ := left.of_black
          obtain ⟨rl, ra, rr, c'', rfl, rightLeft, rightRight⟩ := right.exists_black
          obtain ⟨l', run, deleted⟩ :=
            ih (flip (.node ll false la lr)) (by rw [size_flip]; omega) readyL.flip
          simp only [twoNode, leftRed, ok_bind, Bool.not_false, if_true, run]
          cases rightRed : rl.isRed with
          | false =>
            have moved : moveRedLeft (.node (.node ll false la lr) red a (.node rl false ra rr)) =
                .ok (.node (.node ll true la lr) (!red) a (.node rl true ra rr)) := by
              simp only [moveRedLeft, flipColors, ok_bind, getRight, getLeft, rightRed,
                Bool.false_eq_true, if_false]
              rfl
            obtain ⟨t', balanced, result⟩ := minDeleted_left red (!red) a
              (.node rl false ra rr) (.node rl true ra rr) (minDeleted_flip deleted) node_ne_nil
              (by simp [spineKept, leftIsRed, rightRed]) (by simp) id
            simp only [moved, ok_bind, setLeft]
            exact ⟨t', balanced, result⟩
          | true =>
            obtain ⟨x, b, y, rfl⟩ := exists_red_node rightRed
            obtain ⟨t', balanced, result⟩ := minDeleted_lost red a x b y ra rr
              (minDeleted_flip deleted) node_ne_nil rfl leftRed
            have moved : moveRedLeft (.node (.node ll false la lr) red a
                (.node (.node x true b y) false ra rr)) = .ok (borrowed (.node ll false la lr) red a
                  x b y ra rr) := rfl
            simp only [moved, ok_bind, borrowed, setLeft]
            exact ⟨t', balanced, result⟩

end RBTreeNode

end ArkRuntime
