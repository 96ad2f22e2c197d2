import ArkRuntime.TaggedHash.NodeModel

/-!
# Rotations and flips

They keep the nodes of a tree in their order and the counts of its subtrees. `balance` does not touch
a Hole, whatever the colours are, and leaves every count right.
-/

namespace ArkRuntime

namespace RBTreeNode

open ColorTree

variable {α : Type} {t t' l r : RBTreeNode α} {red : Bool} {a : TreeRecord α}

/-! ## Nodes and counts -/

@[simp] theorem nodes_nil : nodes (.nil : RBTreeNode α) = [] := rfl

@[simp] theorem nodes_node : nodes (.node l red a r) = nodes l ++ a.toTaggedNode :: nodes r := by
  simp [nodes, toList]

@[simp] theorem nodes_flip (t : RBTreeNode α) : nodes t.flip = nodes t := by
  cases t <;> simp [flip]

@[simp] theorem nodes_setBlack (t : RBTreeNode α) : nodes t.setBlack = nodes t := by
  cases t <;> simp [setBlack, blacken]

/-- The number of nodes. -/
def size (t : RBTreeNode α) : Nat := (nodes t).length

@[simp] theorem size_nil : size (.nil : RBTreeNode α) = 0 := rfl

@[simp] theorem size_node : size (.node l red a r) = size l + size r + 1 := by
  simp only [size, nodes_node, List.length_append, List.length_cons]
  omega

/-- Every node counts the nodes of its subtree. -/
def Counted : RBTreeNode α → Prop
  | .nil => True
  | .node l _ a r => a.count = UInt32.ofNat (size l + size r + 1) ∧ Counted l ∧ Counted r

/-- The counts below the root are right. -/
def CountedBelow : RBTreeNode α → Prop
  | .nil => True
  | .node l _ _ r => Counted l ∧ Counted r

theorem Counted.below (counted : Counted t) : CountedBelow t := by
  cases t with
  | nil => trivial
  | node l red a r => exact counted.2

theorem Counted.count_eq (counted : Counted t) : count t = UInt32.ofNat (size t) := by
  cases t with
  | nil => rfl
  | node l red a r =>
    rw [size_node]
    exact counted.1

theorem sum_counts (countedL : Counted l) (countedR : Counted r) :
    count l + count r + 1 = UInt32.ofNat (size l + size r + 1) := by
  rw [countedL.count_eq, countedR.count_eq, UInt32.ofNat_add, UInt32.ofNat_add]
  rfl

theorem Counted.setBlack (counted : Counted t) : Counted t.setBlack := by
  cases t with
  | nil => trivial
  | node l red a r => exact counted

/-! ## Rearrangements -/

/-- A call puts `t'` in the place of `t`: the same nodes in the same order. -/
structure Rearranged (t t' : RBTreeNode α) : Prop where
  ne_nil : t' ≠ .nil
  nodes : nodes t' = nodes t
  count : count t' = count t
  below : CountedBelow t → CountedBelow t'

theorem Rearranged.refl (real : t ≠ .nil) : Rearranged t t := ⟨real, rfl, rfl, id⟩

theorem Rearranged.trans {s : RBTreeNode α} (first : Rearranged s t) (second : Rearranged t t') :
    Rearranged s t' where
  ne_nil := second.ne_nil
  nodes := second.nodes.trans first.nodes
  count := second.count.trans first.count
  below counted := second.below (first.below counted)

theorem Rearranged.size (rearranged : Rearranged t t') : t'.size = t.size :=
  congrArg List.length rearranged.nodes

theorem Rearranged.counted (rearranged : Rearranged t t') (counted : Counted t) : Counted t' := by
  have below := rearranged.below counted.below
  have total := rearranged.count.trans counted.count_eq
  rw [← rearranged.size] at total
  cases t' with
  | nil => trivial
  | node l red a r =>
    rw [size_node] at total
    exact ⟨total, below⟩

theorem rotateLeft_rearranged (rotated : rotateLeft t = .ok t') : Rearranged t t' := by
  unfold rotateLeft at rotated
  split at rotated
  · cases rotated
    refine ⟨nofun, by simp, rfl, fun counted => ⟨⟨?_, counted.1, counted.2.2.1⟩, counted.2.2.2⟩⟩
    exact sum_counts counted.1 counted.2.2.1
  · cases rotated

theorem rotateRight_rearranged (rotated : rotateRight t = .ok t') : Rearranged t t' := by
  unfold rotateRight at rotated
  split at rotated
  · cases rotated
    refine ⟨nofun, by simp, rfl, fun counted => ⟨counted.1.2.1, ?_, counted.1.2.2, counted.2⟩⟩
    exact sum_counts counted.1.2.2 counted.2
  · cases rotated

theorem flipColors_rearranged (flipped : flipColors t = .ok t') : Rearranged t t' := by
  unfold flipColors at flipped
  split at flipped
  · cases flipped
    exact ⟨nofun, by simp, rfl, id⟩
  · cases flipped

/-- A rearranged right child. -/
theorem Rearranged.setRight {r' : RBTreeNode α} (rearranged : Rearranged r r') :
    Rearranged (.node l red a r) (.node l red a r') where
  ne_nil := nofun
  nodes := by rw [nodes_node, nodes_node, rearranged.nodes]
  count := rfl
  below counted := ⟨counted.1, rearranged.counted counted.2⟩

/-! ## Balance -/

theorem leanLeft_spec (l r : RBTreeNode α) (red : Bool) (a : TreeRecord α) :
    ∃ t', leanLeft (.node l red a r) = .ok t' ∧ Rearranged (.node l red a r) t' := by
  cases r with
  | nil => exact ⟨_, rfl, .refl nofun⟩
  | node rl rred ra rr =>
    by_cases lean : (rred && !l.isRed) = true
    · have rotated : leanLeft (.node l red a (.node rl rred ra rr)) =
          rotateLeft (.node l red a (.node rl rred ra rr)) := if_pos lean
      exact ⟨_, rotated, rotateLeft_rearranged rfl⟩
    · exact ⟨_, if_neg lean, .refl nofun⟩

theorem partReds_spec (l r : RBTreeNode α) (red : Bool) (a : TreeRecord α) :
    ∃ t', partReds (.node l red a r) = .ok t' ∧ Rearranged (.node l red a r) t' := by
  cases l with
  | nil => exact ⟨_, rfl, .refl nofun⟩
  | node ll lred la lr =>
    by_cases reds : (lred && ll.isRed) = true
    · have rotated : partReds (.node (.node ll lred la lr) red a r) =
          rotateRight (.node (.node ll lred la lr) red a r) := if_pos reds
      exact ⟨_, rotated, rotateRight_rearranged rfl⟩
    · exact ⟨_, if_neg reds, .refl nofun⟩

theorem splitReds_spec (l r : RBTreeNode α) (red : Bool) (a : TreeRecord α) :
    ∃ t', splitReds (.node l red a r) = .ok t' ∧ Rearranged (.node l red a r) t' := by
  by_cases reds : (l.isRed && r.isRed) = true
  · have split : splitReds (.node l red a r) = flipColors (.node l red a r) := if_pos reds
    rw [Bool.and_eq_true_iff] at reds
    cases l with
    | nil => cases reds.1
    | node ll lred la lr =>
      cases r with
      | nil => cases reds.2
      | node rl rred ra rr => exact ⟨_, split, flipColors_rearranged rfl⟩
  · exact ⟨_, if_neg reds, .refl nofun⟩

theorem exists_node (real : t ≠ .nil) : ∃ l red a r, t = .node l red a r := by
  cases t with
  | nil => exact absurd rfl real
  | node l red a r => exact ⟨l, red, a, r, rfl⟩

theorem exists_red_node (redT : t.isRed = true) : ∃ l a r, t = .node l true a r := by
  cases t with
  | nil => cases redT
  | node l red a r =>
    obtain rfl : red = true := redT
    exact ⟨l, a, r, rfl⟩

theorem isHole_of_ne_nil (real : t ≠ .nil) : isHole t = false := by
  obtain ⟨l, red, a, r, rfl⟩ := exists_node real
  rfl

theorem balance_spec (real : t ≠ .nil) : ∃ t', balance t = .ok t' ∧ t' ≠ .nil ∧
    nodes t' = nodes t ∧ (CountedBelow t → Counted t') := by
  cases t with
  | nil => exact absurd rfl real
  | node l red a r =>
    obtain ⟨t1, run1, step1⟩ := leanLeft_spec l r red a
    obtain ⟨l1, red1, a1, r1, rfl⟩ := exists_node step1.ne_nil
    obtain ⟨t2, run2, step2⟩ := partReds_spec l1 r1 red1 a1
    obtain ⟨l2, red2, a2, r2, rfl⟩ := exists_node step2.ne_nil
    obtain ⟨t3, run3, step3⟩ := splitReds_spec l2 r2 red2 a2
    obtain ⟨l3, red3, a3, r3, rfl⟩ := exists_node step3.ne_nil
    have steps := (step1.trans step2).trans step3
    have run : balance (.node l red a r) =
        .ok (.node l3 red3 { a3 with count := count l3 + count r3 + 1 } r3) := by
      rw [balance, run1, ok_bind, run2, ok_bind, run3, ok_bind]
      rfl
    refine ⟨_, run, nofun, ?_, ?_⟩
    · rw [← steps.nodes, nodes_node, nodes_node]
    · intro counted
      have below := steps.below counted
      exact ⟨sum_counts below.1 below.2, below⟩

end RBTreeNode

end ArkRuntime
