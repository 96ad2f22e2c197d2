import ArkRuntime.TaggedHash.Delete

/-!
# `Delete` of a key in the tree

On the way down a red node is made of the next child or of its left child, which never fails in a
left-leaning tree. The node of the key takes over the first node of its right subtree, which
`DeleteMin` removes: the call does what it should exactly if that subtree meets `spineKept`.
-/

namespace ArkRuntime

namespace RBTreeNode

open ColorTree

variable {α : Type} {t t' l r : RBTreeNode α} {a : TreeRecord α} {red c c' : Bool} {n : Nat}
variable {rt : KeyRuntime α} {hash : Int32} {key : JSTaggedValue α}

/-- The right subtree of the node with the hash. -/
def rightOf (hash : Int32) : RBTreeNode α → RBTreeNode α
  | .nil => .nil
  | .node l _ a r =>
    if hash < a.hash then rightOf hash l else if a.hash < hash then rightOf hash r else r

theorem rightOf_of_lt (less : hash < a.hash) : rightOf hash (.node l red a r) = rightOf hash l :=
  if_pos less

theorem rightOf_of_gt (greater : a.hash < hash) :
    rightOf hash (.node l red a r) = rightOf hash r := by
  rw [rightOf, if_neg (Int32.not_lt.mpr (Int32.le_of_lt greater)), if_pos greater]

theorem rightOf_counted (greater : a.hash < hash) (counts : UInt32) :
    rightOf hash (.node l red { a with count := counts } r) = rightOf hash r := rightOf_of_gt greater

theorem rightOf_of_eq (equal : a.hash = hash) : rightOf hash (.node l red a r) = r := by
  rw [rightOf, equal, if_neg Int32.lt_irrefl, if_neg Int32.lt_irrefl]

theorem rightOf_flip (hash : Int32) (t : RBTreeNode α) : rightOf hash t.flip = rightOf hash t := by
  cases t <;> rfl

/-! ## Where the key is -/

/-- The nodes `l` around the node of the key. -/
structure Located (rt : KeyRuntime α) (hash : Int32) (key : JSTaggedValue α)
    (l before : List (TaggedNode α)) (node : TaggedNode α) (after : List (TaggedNode α)) : Prop where
  split : l = before ++ node :: after
  below : ∀ x ∈ before, x.hash < hash
  above : ∀ x ∈ after, hash < x.hash
  hash_eq : node.hash = hash
  agrees : Agrees rt hash key l

variable {before after : List (TaggedNode α)} {node : TaggedNode α}

/-- The node of the key is to the left of the node at the root, to its right, or it is the one at the root. -/
theorem Located.sides (located : Located rt hash key (nodes (.node l red a r)) before node after) :
    (hash < a.hash ∧ ∃ after', after = after' ++ a.toTaggedNode :: nodes r ∧ nodes l = before ++ node :: after') ∨
      (a.hash = hash ∧ before = nodes l ∧ node = a.toTaggedNode ∧ after = nodes r) ∨
      (a.hash < hash ∧ ∃ before', before = nodes l ++ a.toTaggedNode :: before' ∧ nodes r = before' ++ node :: after) := by
  have split := located.split
  rw [nodes_node] at split
  rcases List.append_eq_append_iff.mp split with ⟨rest, rfl, eq⟩ | ⟨rest, eqL, eq⟩
  · cases rest with
    | nil =>
      obtain ⟨rfl, rfl⟩ := List.cons.inj eq
      exact .inr (.inl ⟨located.hash_eq, List.append_nil _, rfl, rfl⟩)
    | cons x rest =>
      obtain ⟨rfl, eqR⟩ := List.cons.inj eq
      exact .inr (.inr ⟨located.below a.toTaggedNode (by simp), rest, rfl, eqR⟩)
  · cases rest with
    | nil =>
      obtain ⟨rfl, rfl⟩ := List.cons.inj eq
      exact .inr (.inl ⟨located.hash_eq, by rw [eqL, List.append_nil], rfl, rfl⟩)
    | cons x rest =>
      obtain ⟨rfl, rfl⟩ := List.cons.inj eq
      exact .inl ⟨located.above a.toTaggedNode (by simp), rest, rfl, eqL⟩

/-- The node of the key is to the left of a node that is above it. -/
theorem Located.left (located : Located rt hash key (nodes (.node l red a r)) before node after)
    (less : hash < a.hash) : ∃ after', after = after' ++ a.toTaggedNode :: nodes r ∧
      Located rt hash key (nodes l) before node after' := by
  rcases located.sides with ⟨-, after', rfl, split⟩ | ⟨equal, -⟩ | ⟨greater, -⟩
  · exact ⟨after', rfl, split, located.below, fun x mem => located.above x (List.mem_append_left _ mem),
      located.hash_eq, located.agrees.sides.1⟩
  · exact absurd (equal ▸ less) Int32.lt_irrefl
  · exact absurd (Int32.lt_trans less greater) Int32.lt_irrefl

/-- The node of the key is to the right of a node that is below it. -/
theorem Located.right (located : Located rt hash key (nodes (.node l red a r)) before node after)
    (greater : a.hash < hash) : ∃ before', before = nodes l ++ a.toTaggedNode :: before' ∧
      Located rt hash key (nodes r) before' node after := by
  rcases located.sides with ⟨less, -⟩ | ⟨equal, -⟩ | ⟨-, before', rfl, split⟩
  · exact absurd (Int32.lt_trans less greater) Int32.lt_irrefl
  · exact absurd (equal ▸ greater) Int32.lt_irrefl
  · exact ⟨before', rfl, split, fun x mem => located.below x (by simp [mem]), located.above,
      located.hash_eq, located.agrees.sides.2.2⟩

theorem Located.here (located : Located rt hash key (nodes (.node l red a r)) before node after)
    (equal : a.hash = hash) : before = nodes l ∧ node = a.toTaggedNode ∧ after = nodes r := by
  rcases located.sides with ⟨less, -⟩ | ⟨-, here⟩ | ⟨greater, -⟩
  · exact absurd (equal ▸ less) Int32.lt_irrefl
  · exact here
  · exact absurd (equal ▸ greater) Int32.lt_irrefl

theorem Located.of_nodes {l l' : List (TaggedNode α)}
    (located : Located rt hash key l before node after) (same : l' = l) :
    Located rt hash key l' before node after := same ▸ located

/-! ## The way down -/

/-- The children lean as they should, one of them perhaps to the right. -/
def Ready (t : RBTreeNode α) : Prop :=
  ∃ l red a r c c' n, t = .node l red a r ∧ LeftLeaning c n l ∧ LeftLeaning c' n r

theorem ReadyMin.ready (ready : ReadyMin t) : Ready t := by
  obtain ⟨l, red, a, r, c, n, rfl, left, right⟩ := ready
  exact ⟨l, red, a, r, c, false, n, rfl, left, right⟩

theorem redToLeft_of_red (redLeft : l.isRed = true) :
    redToLeft (.node l red a r) = .ok (.node l red a r) := by
  rw [redToLeft, getLeft, ok_bind, isTwoNode, if_pos redLeft]
  rfl

/-- The step to the left. The left child it leaves has the old one in it, but for its colour. -/
structure SteppedLeft (l : RBTreeNode α) (a : TreeRecord α) (r l₁ : RBTreeNode α)
    (a₁ : TreeRecord α) : Prop where
  ready : Ready l₁
  child : (l₁ = l ∨ l₁ = l.flip ∨ ∃ red a' x, l₁ = .node l.flip red a' x ∧ a'.hash = a.hash)
  root : a₁.hash = a.hash ∨ a₁.toTaggedNode ∈ nodes r

theorem redToLeft_spec (red : Bool) (a : TreeRecord α) (left : LeftLeaning c n l) (right : LeftLeaning c' n r) (real : l ≠ .nil) :
    ∃ l₁ red1 a₁ r₁, redToLeft (.node l red a r) = .ok (.node l₁ red1 a₁ r₁) ∧
      SteppedLeft l a r l₁ a₁ := by
  have readyL := readyMin_of_leaning left real
  cases c with
  | true => exact ⟨l, red, a, r, redToLeft_of_red left.isRed_eq, readyL.ready, .inl rfl, .inl rfl⟩
  | false =>
    obtain ⟨ll, lred, la, lr, rfl⟩ := exists_node real
    obtain rfl : lred = false := left.isRed_eq
    obtain ⟨-, m, c1, rfl, leftLeft, leftRight⟩ := left.of_black
    have step : redToLeft (.node (.node ll false la lr) red a r) =
        if (!ll.isRed) = true then moveRedLeft (.node (.node ll false la lr) red a r)
        else .ok (.node (.node ll false la lr) red a r) := rfl
    cases leftRed : ll.isRed with
    | true =>
      rw [leftRed] at step
      exact ⟨_, red, a, r, step, readyL.ready, .inl rfl, .inl rfl⟩
    | false =>
      rw [leftRed] at step
      have realR : r ≠ .nil := by
        rintro rfl
        cases right.height_eq_zero.2
      obtain ⟨rl, rred, ra, rr, rfl⟩ := exists_node realR
      cases rightRed : rl.isRed with
      | false =>
        have moved : moveRedLeft (.node (.node ll false la lr) red a (.node rl rred ra rr)) =
            .ok (.node (.node ll true la lr) (!red) a (.node rl (!rred) ra rr)) := by
          simp only [moveRedLeft, flipColors, ok_bind, getRight, getLeft, rightRed,
            Bool.false_eq_true, if_false]
          rfl
        exact ⟨_, _, _, _, step.trans moved, readyL.flip.ready, .inr (.inl rfl), .inl rfl⟩
      | true =>
        obtain ⟨x, b, y, rfl⟩ := exists_red_node rightRed
        refine ⟨_, _, _, _, step, ⟨?_, .inr (.inr ⟨_, _, x, rfl, rfl⟩), .inr ?_⟩⟩
        · cases leftLeft.isRed_eq.symm.trans leftRed
          have inner : LeftLeaning false m x := by
            cases rred with
            | true => cases right.of_red.2.1.isRed_eq
            | false =>
              obtain ⟨-, m', c2, same, borrowed, -⟩ := right.of_black
              cases same
              exact borrowed.of_red.2.1
          exact ⟨_, _, _, _, true, false, m, rfl, .red leftLeft leftRight, inner⟩
        · simp

/-- The step to the right: the root stays and the right child may change its colour, or the root
    goes down to the right and has the old right child below it. -/
inductive SteppedRight (l : RBTreeNode α) (a : TreeRecord α) (r : RBTreeNode α) :
    RBTreeNode α → TreeRecord α → RBTreeNode α → Prop
  | stays {l₁ r₁ : RBTreeNode α} {a₁ : TreeRecord α} : a₁.toTaggedNode = a.toTaggedNode →
      nodes l₁ = nodes l → r₁ = r ∨ r₁ = r.flip → ReadyMin r₁ → SteppedRight l a r l₁ a₁ r₁
  | sinks {l₁ lr : RBTreeNode α} {a₁ a' : TreeRecord α} {red : Bool} :
      a₁.toTaggedNode ∈ nodes l → a'.hash = a.hash → Ready (.node lr red a' r.flip) →
      SteppedRight l a r l₁ a₁ (.node lr red a' r.flip)

theorem redToRight_spec (red : Bool) (a : TreeRecord α) (left : LeftLeaning false n l) (right : LeftLeaning c n r)
    (real : r ≠ .nil) :
    ∃ l₁ red1 a₁ r₁, redToRight (.node l red a r) = .ok (.node l₁ red1 a₁ r₁) ∧
      SteppedRight l a r l₁ a₁ r₁ := by
  have readyR := readyMin_of_leaning right real
  have unchanged : SteppedRight l a r l a r := .stays rfl rfl (.inl rfl) readyR
  cases c with
  | true =>
    refine ⟨l, red, a, r, ?_, unchanged⟩
    rw [redToRight, getRight, ok_bind, isTwoNode, if_pos right.isRed_eq]
    rfl
  | false =>
    obtain ⟨rl, rred, ra, rr, rfl⟩ := exists_node real
    obtain rfl : rred = false := right.isRed_eq
    obtain ⟨-, m, c1, rfl, rightLeft, rightRight⟩ := right.of_black
    have step : redToRight (.node l red a (.node rl false ra rr)) =
        if (!rl.isRed) = true then moveRedRight (.node l red a (.node rl false ra rr))
        else .ok (.node l red a (.node rl false ra rr)) := rfl
    cases rightRed : rl.isRed with
    | true =>
      rw [rightRed] at step
      exact ⟨l, red, a, _, step, unchanged⟩
    | false =>
      rw [rightRed] at step
      cases rightLeft.isRed_eq.symm.trans rightRed
      obtain ⟨ll, la, lr, c2, rfl, leftLeft, leftRight⟩ := left.exists_black
      cases leftRed : ll.isRed with
      | false =>
        have moved : moveRedRight (.node (.node ll false la lr) red a (.node rl false ra rr)) =
            .ok (.node (.node ll true la lr) (!red) a (.node rl true ra rr)) := by
          simp only [moveRedRight, flipColors, ok_bind, getLeft, leftRed, Bool.false_eq_true,
            if_false]
          rfl
        exact ⟨_, _, _, _, step.trans moved, .stays rfl (by simp) (.inr rfl) readyR.flip⟩
      | true =>
        obtain ⟨x, b, y, rfl⟩ := exists_red_node leftRed
        refine ⟨_, _, _, _, step, .sinks (by simp) rfl ?_⟩
        exact ⟨_, _, _, _, false, true, m, rfl, leftRight, .red rightLeft rightRight⟩

/-! ## The whole call -/

/-- What `Delete` returns: the node of the key is removed if `spineKept` holds of its right subtree;
    otherwise other nodes are lost with it. -/
def KeyDeleted (hash : Int32) (t : RBTreeNode α) (before after : List (TaggedNode α))
    (t' : RBTreeNode α) : Prop :=
  (CountedBelow t → Counted t') ∧
    if spineKept (rightOf hash t) then nodes t' = before ++ after else size t' + 1 < size t

/-- The key is deleted in the left child. -/
theorem keyDeleted_left {l' : RBTreeNode α} {after' : List (TaggedNode α)} (red : Bool)
    (deleted : KeyDeleted hash l before after' l') (less : hash < a.hash)
    (eq : after = after' ++ a.toTaggedNode :: nodes r) :
    ∃ t', balance (.node l' red a r) = .ok t' ∧ KeyDeleted hash (.node l red a r) before after t' := by
  obtain ⟨t', run, -, same, counted⟩ := balance_spec (t := .node l' red a r) nofun
  have sizes := congrArg List.length same
  change size t' = size (.node l' _ _ _) at sizes
  refine ⟨t', run, fun below => counted ⟨deleted.1 below.1.below, below.2⟩, ?_⟩
  have nodesL := deleted.2
  rw [rightOf_of_lt less]
  split
  · rename_i kept
    rw [if_pos kept] at nodesL
    rw [same, nodes_node, nodesL, eq, List.append_assoc]
  · rename_i lost
    rw [if_neg lost] at nodesL
    rw [sizes, size_node, size_node]
    omega

/-- The key is deleted in the right child. -/
theorem keyDeleted_right {r' : RBTreeNode α} {before' : List (TaggedNode α)} (red : Bool)
    (deleted : KeyDeleted hash r before' after r') (greater : a.hash < hash)
    (eq : before = nodes l ++ a.toTaggedNode :: before') :
    ∃ t', balance (.node l red a r') = .ok t' ∧ KeyDeleted hash (.node l red a r) before after t' := by
  obtain ⟨t', run, -, same, counted⟩ := balance_spec (t := .node l red a r') nofun
  have sizes := congrArg List.length same
  change size t' = size (.node _ _ _ r') at sizes
  refine ⟨t', run, fun below => counted ⟨below.1, deleted.1 below.2.below⟩, ?_⟩
  have nodesR := deleted.2
  rw [rightOf_of_gt greater]
  split
  · rename_i kept
    rw [if_pos kept] at nodesR
    rw [same, nodes_node, nodesR, eq, List.append_assoc, List.cons_append]
  · rename_i lost
    rw [if_neg lost] at nodesR
    rw [sizes, size_node, size_node]
    omega

/-- The minimum of a tree is its first node. -/
theorem min_spec (t : RBTreeNode α) (real : t ≠ .nil) :
    ∃ m, min t = .ok m ∧ ∃ rest, nodes t = m.toTaggedNode :: rest := by
  induction t with
  | nil => exact absurd rfl real
  | node l red a r ih =>
    cases l with
    | nil => exact ⟨a, rfl, nodes r, by simp⟩
    | node ll lred la lr =>
      obtain ⟨m, run, rest, eq⟩ := ih nofun
      exact ⟨m, run, rest ++ a.toTaggedNode :: nodes r, by rw [nodes_node, eq]; rfl⟩

/-- The node of the key takes over the first node of its right subtree. -/
theorem keyDeleted_here {r' : RBTreeNode α} {m : TreeRecord α} {rest : List (TaggedNode α)}
    (l : RBTreeNode α) (red : Bool)
    (first : nodes r = m.toTaggedNode :: rest) (deleted : MinDeleted r r') (equal : a.hash = hash) :
    ∃ t', balance (.node l red ⟨m.toTaggedNode, a.count⟩ r') = .ok t' ∧
      KeyDeleted hash (.node l red a r) (nodes l) (nodes r) t' := by
  obtain ⟨t', run, -, same, counted⟩ :=
    balance_spec (t := .node l red ⟨m.toTaggedNode, a.count⟩ r') nofun
  have sizes := congrArg List.length same
  change size t' = size (.node _ _ _ r') at sizes
  refine ⟨t', run, fun below => counted ⟨below.1, deleted.1 below.2.below⟩, ?_⟩
  have nodesR := deleted.2
  rw [rightOf_of_eq equal]
  split
  · rename_i kept
    rw [if_pos kept, first] at nodesR
    rw [same, nodes_node, nodesR, first]
    rfl
  · rename_i lost
    rw [if_neg lost] at nodesR
    rw [sizes, size_node, size_node]
    omega

theorem KeyDeleted.of_rearranged {t1 : RBTreeNode α} (deleted : KeyDeleted hash t1 before after t')
    (step : Rearranged t t1) (kept : spineKept (rightOf hash t1) = spineKept (rightOf hash t)) :
    KeyDeleted hash t before after t' := by
  obtain ⟨counted, nodes⟩ := deleted
  rw [kept, step.size] at nodes
  exact ⟨fun below => counted (step.below below), nodes⟩

theorem redToLeft_rearranged (run : redToLeft t = .ok t') (real : t ≠ .nil) : Rearranged t t' := by
  obtain fault | ⟨t1, run1, step⟩ := redToLeft_cases real
  · rw [fault] at run
    cases run
  · cases run1.symm.trans run
    exact step

theorem redToRight_rearranged (run : redToRight t = .ok t') (real : t ≠ .nil) : Rearranged t t' := by
  obtain fault | ⟨t1, run1, step⟩ := redToRight_cases real
  · rw [fault] at run
    cases run
  · cases run1.symm.trans run
    exact step

theorem SteppedLeft.rightOf_eq {l₁ : RBTreeNode α} {a₁ : TreeRecord α}
    (stepped : SteppedLeft l a r l₁ a₁) (less : hash < a.hash) :
    rightOf hash l₁ = rightOf hash l := by
  rcases stepped.child with rfl | rfl | ⟨red, a', x, rfl, same⟩
  · rfl
  · exact rightOf_flip hash l
  · rw [rightOf_of_lt (same ▸ less), rightOf_flip]

/-- `Delete` goes on in a child. -/
def Continues (rt : KeyRuntime α) (hash : Int32) (key : JSTaggedValue α) (node : TaggedNode α)
    (fuel : Nat) : Prop :=
  ∀ (t : RBTreeNode α) (before after : List (TaggedNode α)), size t ≤ fuel → Ready t →
    Located rt hash key (nodes t) before node after →
    ∃ t', delete rt hash key fuel t = .ok (t', node.value) ∧ KeyDeleted hash t before after t'

theorem delete_left {fuel : Nat} (ih : Continues rt hash key node fuel)
    (small : size (.node l red a r) ≤ fuel + 1) (left : LeftLeaning c n l)
    (right : LeftLeaning c' n r)
    (located : Located rt hash key (nodes (.node l red a r)) before node after)
    (less : hash < a.hash) :
    ∃ t', delete rt hash key (fuel + 1) (.node l red a r) = .ok (t', node.value) ∧
      KeyDeleted hash (.node l red a r) before after t' := by
  have agreesA := located.agrees.sides.2.1
  obtain ⟨behind, afterEq, locatedL⟩ := located.left less
  have real : l ≠ .nil := by
    rintro rfl
    have split := locatedL.split
    simp at split
  obtain ⟨l₁, red1, a₁, r₁, run, stepped⟩ :=
    redToLeft_spec red a left right real
  have step := redToLeft_rearranged run nofun
  have less1 : hash < a₁.hash := by
    rcases stepped.root with same | mem
    · exact same ▸ less
    · exact located.above _ (by rw [afterEq]; simp [mem])
  obtain ⟨behind1, afterEq1, located1⟩ := (located.of_nodes step.nodes).left less1
  have sizes := step.size
  rw [size_node] at sizes
  obtain ⟨l', deleted, result⟩ := ih l₁ before behind1 (by omega) stepped.ready located1
  obtain ⟨t', balanced, result⟩ :=
    keyDeleted_left red1 result less1 afterEq1
  refine ⟨t', ?_, result.of_rearranged step ?_⟩
  · rw [delete, record, ok_bind, if_pos ((compare_lt_zero agreesA).mpr less), run, ok_bind, getLeft,
      ok_bind, deleted, ok_bind, setLeft, ok_bind, balanced, ok_bind]
    rfl
  · rw [rightOf_of_lt less1, stepped.rightOf_eq less, rightOf_of_lt less]

/-- The step to the right, when the key is in the right subtree that it leaves. -/
theorem deleteRight_below {fuel : Nat} (ih : Continues rt hash key node fuel)
    (small : size (.node l red a r) ≤ fuel + 1)
    (located : Located rt hash key (nodes (.node l red a r)) before node after) (real : r ≠ .nil)
    {l₁ r₁ : RBTreeNode α} {red1 : Bool} {a₁ : TreeRecord α}
    (run : redToRight (.node l red a r) = .ok (.node l₁ red1 a₁ r₁)) (greater1 : a₁.hash < hash)
    (ready : Ready r₁) (kept : rightOf hash r₁ = rightOf hash (.node l red a r) ∨
      rightOf hash r₁ = (rightOf hash (.node l red a r)).flip) :
    ∃ t', deleteRight rt hash key fuel (delete rt hash key fuel) (.node l red a r) =
        .ok (t', node.value) ∧ KeyDeleted hash (.node l red a r) before after t' := by
  have step := redToRight_rearranged run nofun
  have located1 := located.of_nodes step.nodes
  have agreesA1 := located1.agrees.sides.2.1
  obtain ⟨front, beforeEq, locatedR⟩ := located1.right greater1
  have sizes := step.size
  rw [size_node] at sizes
  obtain ⟨r', deleted, result⟩ := ih r₁ front after (by omega) ready locatedR
  obtain ⟨t', balanced, result⟩ :=
    keyDeleted_right red1 result greater1 beforeEq
  have other1 : ¬compare rt hash key a₁.hash a₁.key = 0 := fun eq =>
    Int32.ne_of_lt greater1 ((compare_eq_zero agreesA1).mp eq)
  refine ⟨t', ?_, result.of_rearranged step ?_⟩
  · rw [deleteRight, record, ok_bind, getRight, ok_bind,
      if_neg (by rw [isHole_of_ne_nil real]; exact fun both => Bool.false_ne_true both.2), run, ok_bind, record,
      ok_bind, getRight, ok_bind, if_neg other1, deleted, ok_bind, setRight, ok_bind, balanced,
      ok_bind]
    rfl
  · rw [rightOf_of_gt greater1]
    rcases kept with same | same
    · rw [same]
    · rw [same, spineKept_flip]

/-- The node of the key is the root. -/
theorem deleteRight_here {fuel : Nat} (small : size (.node l red a r) ≤ fuel + 1)
    (left : LeftLeaning false n l) (right : LeftLeaning c n r)
    (agrees : Agrees rt hash key (nodes (.node l red a r))) (equal : a.hash = hash)
    {deleteIn : RBTreeNode α → Except TreeFault (RBTreeNode α × JSTaggedValue α)}
    (l₁ : RBTreeNode α) (red1 : Bool) (a₁ : TreeRecord α) (r₁ : RBTreeNode α)
    (run : r ≠ .nil → redToRight (.node l red a r) = .ok (.node l₁ red1 a₁ r₁) ∧
      a₁.toTaggedNode = a.toTaggedNode ∧ nodes l₁ = nodes l ∧ (r₁ = r ∨ r₁ = r.flip) ∧ ReadyMin r₁) :
    ∃ t', deleteRight rt hash key fuel deleteIn (.node l red a r) = .ok (t', a.value) ∧
      KeyDeleted hash (.node l red a r) (nodes l) (nodes r) t' := by
  have here : compare rt hash key a.hash a.key = 0 := (compare_eq_zero agrees.sides.2.1).mpr equal
  rw [deleteRight, record, ok_bind, getRight, ok_bind]
  by_cases hole : r = .nil
  · subst hole
    obtain ⟨rfl, rfl⟩ := right.height_eq_zero
    obtain rfl := left.eq_nil
    rw [if_pos ⟨here, rfl⟩]
    refine ⟨.nil, rfl, fun _ => trivial, ?_⟩
    rw [rightOf_of_eq equal]
    rfl
  · obtain ⟨run, same, sameL, sameR, ready⟩ := run hole
    have step := redToRight_rearranged run node_ne_nil
    have sizes := step.size
    rw [size_node] at sizes
    obtain ⟨m, first, rest, nodesR⟩ := min_spec r₁ (by
      obtain ⟨_, _, _, _, _, _, rfl, -, -⟩ := ready
      exact node_ne_nil)
    obtain ⟨r', deleted, result⟩ := deleteMin_spec fuel r₁ (by omega) ready
    have equal1 : a₁.hash = hash := (congrArg TaggedNode.hash same).trans equal
    have here1 : compare rt hash key a₁.hash a₁.key = 0 :=
      (compare_eq_zero (step.nodes ▸ agrees).sides.2.1).mpr equal1
    obtain ⟨t', balanced, result⟩ :=
      keyDeleted_here l₁ red1 nodesR result equal1
    have nodesEq : nodes r₁ = nodes r := by
      rcases sameR with rfl | rfl
      · rfl
      · exact nodes_flip r
    have spine : spineKept (rightOf hash (.node l₁ red1 a₁ r₁)) =
        spineKept (rightOf hash (.node l red a r)) := by
      rw [rightOf_of_eq equal1, rightOf_of_eq equal]
      rcases sameR with rfl | rfl
      · rfl
      · exact spineKept_flip r
    rw [sameL, nodesEq] at result
    refine ⟨t', ?_, result.of_rearranged step spine⟩
    rw [if_neg (by rw [isHole_of_ne_nil hole]; exact fun both => Bool.false_ne_true both.2), run, ok_bind, record,
      ok_bind, getRight, ok_bind, if_pos here1, first, ok_bind, deleted, ok_bind, getLeft, ok_bind]
    change (balance (.node l₁ red1 ⟨m.toTaggedNode, a₁.count⟩ r') >>= fun treeNode =>
      pure (treeNode, a₁.value)) = _
    rw [balanced, ok_bind, congrArg TaggedNode.value same]
    rfl

/-- Below a red left child the root goes down to the right. -/
theorem leanRight_of_red {ll lr : RBTreeNode α} {la : TreeRecord α} :
    leanRight (.node (.node ll true la lr) red a r) =
      .ok (.node ll red { la with count := a.count }
        (.node lr true { a with count := count lr + count r + 1 } r)) := rfl

theorem rightOf_of_not_lt (notLess : ¬hash < a.hash) : rightOf hash (.node l red a r) =
    if a.hash < hash then rightOf hash r else r := if_neg notLess

theorem Located.below_of_not_lt
    (located : Located rt hash key (nodes (.node l red a r)) before node after)
    (notLess : ¬hash < a.hash) : ∀ x ∈ nodes l, x.hash < hash := by
  intro x mem
  by_cases equal : a.hash = hash
  · obtain ⟨rfl, -, -⟩ := located.here equal
    exact located.below x mem
  · obtain ⟨front, rfl, -⟩ :=
      located.right (Int32.lt_of_le_of_ne (Int32.not_lt.mp notLess) equal)
    exact located.below x (List.mem_append_left _ mem)

/-- `Delete` of a key in the tree. -/
theorem delete_spec (rt : KeyRuntime α) (hash : Int32) (key : JSTaggedValue α)
    (node : TaggedNode α) : ∀ fuel, Continues rt hash key node fuel := by
  intro fuel
  induction fuel with
  | zero =>
    intro t before after small ready located
    obtain ⟨l, red, a, r, c, c', n, rfl, -, -⟩ := ready
    rw [size_node] at small
    omega
  | succ fuel ih =>
    intro t before after small ready located
    obtain ⟨l, red, a, r, c, c', n, rfl, left, right⟩ := ready
    by_cases less : hash < a.hash
    · exact delete_left ih small left right located less
    have agreesA := located.agrees.sides.2.1
    have belowL := located.below_of_not_lt less
    rw [delete, record, ok_bind, if_neg fun lt => less ((compare_lt_zero agreesA).mp lt)]
    cases c with
    | true =>
      obtain ⟨ll, la, lr, rfl, -, leftRight⟩ := left.exists_red
      have step : Rearranged (.node (.node ll true la lr) red a r) (.node ll red
          { la with count := a.count } (.node lr true { a with count := count lr + count r + 1 } r)) :=
        rotateRight_rearranged rfl
      have run : redToRight (.node ll red { la with count := a.count }
          (.node lr true { a with count := count lr + count r + 1 } r)) = .ok (.node ll red
          { la with count := a.count } (.node lr true { a with count := count lr + count r + 1 } r)) :=
        rfl
      have greater : la.hash < hash := belowL la.toTaggedNode (by simp)
      obtain ⟨t', deleted, result⟩ := deleteRight_below ih (step.size ▸ small)
        (located.of_nodes step.nodes) node_ne_nil run greater
        ⟨_, _, _, _, _, _, n, rfl, leftRight, right⟩ (.inl (rightOf_counted greater _).symm)
      refine ⟨t', by rw [leanRight_of_red, ok_bind, deleted], result.of_rearranged step ?_⟩
      have right1 : rightOf hash (.node lr true { a with count := count lr + count r + 1 } r) =
          rightOf hash (.node (.node ll true la lr) red a r) :=
        (if_neg less).trans (rightOf_of_not_lt less).symm
      exact congrArg spineKept ((rightOf_counted greater _).trans right1)
    | false =>
      have lean : leanRight (.node l red a r) = .ok (.node l red a r) := by
        rw [leanRight, getLeft, ok_bind, left.isRed_eq]
        rfl
      rw [lean, ok_bind]
      by_cases equal : a.hash = hash
      · obtain ⟨rfl, rfl, rfl⟩ := located.here equal
        by_cases real : r = .nil
        · exact deleteRight_here small left right located.agrees equal l red a r
            fun hole => absurd real hole
        · obtain ⟨l₁, red1, a₁, r₁, run, stepped⟩ := redToRight_spec red a left right real
          cases stepped with
          | stays same sameL sameR ready =>
            exact deleteRight_here small left right located.agrees equal l₁ red1 a₁ r₁ fun _ =>
              ⟨run, same, sameL, sameR, ready⟩
          | sinks mem same ready =>
            refine deleteRight_below ih small located real run (belowL _ mem) ready (.inr ?_)
            rw [rightOf_of_eq (same.trans equal), rightOf_of_eq equal]
      · have greater : a.hash < hash := Int32.lt_of_le_of_ne (Int32.not_lt.mp less) equal
        obtain ⟨front, -, locatedR⟩ := located.right greater
        have real : r ≠ .nil := by
          rintro rfl
          have split := locatedR.split
          simp at split
        obtain ⟨l₁, red1, a₁, r₁, run, stepped⟩ := redToRight_spec red a left right real
        cases stepped with
        | stays same sameL sameR ready =>
          have greater1 : a₁.hash < hash := (congrArg TaggedNode.hash same).symm ▸ greater
          refine deleteRight_below ih small located real run greater1 ready.ready (.inl ?_)
          rw [rightOf_of_gt greater]
          rcases sameR with rfl | rfl
          · rfl
          · exact rightOf_flip hash r
        | sinks mem same ready =>
          refine deleteRight_below ih small located real run (belowL _ mem) ready (.inl ?_)
          rw [rightOf_of_gt (same ▸ greater), rightOf_of_gt greater, rightOf_flip]

end RBTreeNode

end ArkRuntime

/-!
## `Delete` in the trees that `Set` builds

Different keys have different hashes. The node of the key goes, and no other, exactly if its right
subtree meets `spineKept`.
-/

namespace ArkRuntime

namespace RBTreeNode

open ColorTree

variable {α : Type} {rt : KeyRuntime α} {entries : List (TaggedNode α)} {t : RBTreeNode α}
variable {before after : List (TaggedNode α)} {node : TaggedNode α} {key : JSTaggedValue α}

/-- The nodes of a bin around a node whose key is given. -/
theorem TreeBin.located (bin : TreeBin entries t) (keys : DistinctHashes rt entries)
    (split : nodes t = before ++ node :: after) (same : rt.sameValue key node.key = true) :
    Located rt node.hash key (nodes t) before node after := by
  have sorted := bin.sorted
  rw [split, SortedByHash, List.pairwise_append, List.pairwise_cons] at sorted
  obtain ⟨-, ⟨above, -⟩, across⟩ := sorted
  have mem : node ∈ nodes t := by
    rw [split]
    exact List.mem_append_right _ List.mem_cons_self
  obtain ⟨e, memE, hashE, keyE⟩ := bin.origin node mem
  refine ⟨split, fun x memX => across x memX node List.mem_cons_self, above, rfl, ?_⟩
  intro x memX
  have agrees := bin.agrees keys memE x memX
  rw [← hashE, ← keyE] at agrees
  refine Iff.trans ?_ agrees
  constructor
  · exact fun other => rt.trans _ _ _ (rt.symm _ _ same) other
  · exact fun other => rt.trans _ _ _ same other

theorem TreeBin.ready (bin : TreeBin entries t) (real : t ≠ .nil) : Ready t := by
  obtain ⟨n, leaning⟩ := bin.leaning
  exact (readyMin_of_leaning leaning real).ready

/-- `Delete` removes exactly the node of the key if `spineKept` holds of the right subtree of that
    node, and not otherwise. -/
theorem delete_exact_iff (rt : KeyRuntime α) (entries : List (TaggedNode α))
    (keys : DistinctHashes rt entries) :
    ∃ t, treeing rt entries = .ok t ∧
      ∀ before node after key fuel, nodes t = before ++ node :: after →
        rt.sameValue key node.key = true → size t ≤ fuel →
        ((∃ t', delete rt node.hash key fuel t = .ok (t', node.value) ∧
            nodes t' = before ++ after ∧ count t' = count t - 1) ↔
          spineKept (rightOf node.hash t) = true) := by
  obtain ⟨t, run, bin⟩ := treeing_treeBin keys
  refine ⟨t, run, ?_⟩
  intro before node after key fuel split same enough
  have real : t ≠ .nil := by
    rintro rfl
    simp at split
  obtain ⟨t', deleted, counted, result⟩ := delete_spec rt node.hash key node fuel t before after
    enough (bin.ready real) (bin.located keys split same)
  have sizes : size t = (before ++ after).length + 1 := by
    rw [size, split]
    simp only [List.length_append, List.length_cons]
    omega
  constructor
  · rintro ⟨t1, run1, exact, -⟩
    cases deleted.symm.trans run1
    by_contra lost
    rw [if_neg lost] at result
    have fewer := congrArg List.length exact
    change size t' = _ at fewer
    omega
  · intro kept
    rw [if_pos kept] at result
    refine ⟨t', deleted, result, ?_⟩
    have sizes' : size t = size t' + 1 := by rw [sizes, size, result]
    rw [(counted bin.counted.below).count_eq, bin.counted.count_eq, sizes', UInt32.ofNat_add]
    exact (UInt32.add_sub_cancel _ _).symm

/-! ### A bin of twelve integers -/

/-- Integers as keys, each of which is its own hash. -/
def numbered : KeyRuntime Unit where
  null := ()
  sameValue x y := decide (x = y)
  hash
    | .int i => Int32.ofInt i
    | _ => 0
  refl _ := decide_eq_true rfl
  symm _ _ same := decide_eq_true (of_decide_eq_true same).symm
  trans _ _ _ first second :=
    decide_eq_true ((of_decide_eq_true first).trans (of_decide_eq_true second))
  hole _ same := (of_decide_eq_true same).symm

/-- The nodes of the integers below `n`, each with itself as value. -/
def firstInts (n : Nat) : List (TaggedNode Unit) :=
  (List.range n).map fun i => ⟨numbered.hash (.int i), .int i, .int i⟩

theorem distinctHashes_firstInts : DistinctHashes numbered (firstInts 12) := by
  unfold DistinctHashes
  decide +kernel

theorem delete_exact_iff_firstInts : DistinctHashes numbered (firstInts 12) ∧
    ∃ t, treeing numbered (firstInts 12) = .ok t ∧
      ∀ before node after key fuel, nodes t = before ++ node :: after →
        numbered.sameValue key node.key = true → size t ≤ fuel →
        ((∃ t', delete numbered node.hash key fuel t = .ok (t', node.value) ∧
            nodes t' = before ++ after ∧ count t' = count t - 1) ↔
          spineKept (rightOf node.hash t) = true) :=
  ⟨distinctHashes_firstInts, delete_exact_iff numbered (firstInts 12) distinctHashes_firstInts⟩

/-- `Delete` of 7 loses 9 too, whose left child is the node 8 and whose right child has a red left
    child. -/
theorem delete_loses_another : DistinctHashes numbered (firstInts 12) ∧
    (do
      let t ← treeing numbered (firstInts 12)
      let deleted ← delete numbered 7 (.int 7) 12 t
      return (nodes t, count t, nodes deleted.1, count deleted.1, deleted.2)) =
    .ok (firstInts 12, 12,
      (firstInts 12).filter fun node => node.key != .int 7 && node.key != .int 9, 10, .int 7) :=
  ⟨distinctHashes_firstInts, by decide +kernel⟩

end RBTreeNode

end ArkRuntime
