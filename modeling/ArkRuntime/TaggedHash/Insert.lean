import ArkRuntime.TaggedHash.Rearrange

/-!
# `Set` and `Treeing`

`Set` keeps a tree left-leaning and its nodes in the order of their hashes, as long as keys of one
hash are the same value.
-/

namespace ArkRuntime

namespace RBTreeNode

open ColorTree

variable {α : Type} {t t' l r : RBTreeNode α} {a : TreeRecord α} {rt : KeyRuntime α}
variable {hash : Int32} {key value : JSTaggedValue α} {c : Bool} {n : Nat}

/-! ## The shape -/

/-- A red root whose left child may be red too. -/
def NearlyLeaning (n : Nat) (t : RBTreeNode α) : Prop :=
  ∃ l a r c, t = .node l true a r ∧ LeftLeaning c n l ∧ LeftLeaning false n r

section Steps

variable {red : Bool}

theorem leanLeft_of_black (black : r.isRed = false) :
    leanLeft (.node l red a r) = .ok (.node l red a r) := by
  rw [leanLeft, getLeft, ok_bind, getRight, ok_bind, black]
  rfl

theorem leanLeft_of_red (redLeft : l.isRed = true) :
    leanLeft (.node l red a r) = .ok (.node l red a r) := by
  rw [leanLeft, getLeft, ok_bind, getRight, ok_bind, redLeft, Bool.not_true, Bool.and_false]
  rfl

theorem partReds_of_leaning (left : LeftLeaning c n l) :
    partReds (.node l red a r) = .ok (.node l red a r) := by
  cases left with
  | nil => rfl
  | red inner _ =>
    rw [partReds, getLeft, ok_bind]
    simp only [inner.isRed_eq]
    rfl
  | black _ _ => rfl

theorem splitReds_of_black (black : r.isRed = false) :
    splitReds (.node l red a r) = .ok (.node l red a r) := by
  rw [splitReds, getLeft, ok_bind, getRight, ok_bind, black, Bool.and_false]
  rfl

/-- `Balance` changes only the count of a node whose children lean as they should. -/
theorem balance_leaning (left : LeftLeaning c n l) (right : LeftLeaning false n r) :
    balance (.node l red a r) = recount (.node l red a r) := by
  rw [balance, leanLeft_of_black right.isRed_eq, ok_bind, partReds_of_leaning left, ok_bind,
    splitReds_of_black right.isRed_eq, ok_bind]

end Steps

theorem balance_red_left (left : LeftLeaning c n l) (right : LeftLeaning false n r) :
    ∃ t', balance (.node l true a r) = .ok t' ∧ NearlyLeaning n t' :=
  ⟨_, balance_leaning left right, _, _, _, _, rfl, left, right⟩

theorem balance_red_right (left : LeftLeaning false n l) (right : LeftLeaning c n r) :
    ∃ t', balance (.node l true a r) = .ok t' ∧ NearlyLeaning n t' := by
  cases c with
  | false => exact balance_red_left left right
  | true =>
    obtain ⟨rl, ra, rr, rfl, inner, outer⟩ := right.exists_red
    have lean : leanLeft (.node l true a (.node rl true ra rr)) =
        rotateLeft (.node l true a (.node rl true ra rr)) := by
      rw [leanLeft, getLeft, ok_bind, getRight, ok_bind, left.isRed_eq]
      rfl
    rw [balance, lean, rotateLeft, ok_bind, partReds_of_leaning (.red left inner), ok_bind,
      splitReds_of_black outer.isRed_eq, ok_bind]
    exact ⟨_, rfl, _, _, _, _, rfl, .red left inner, outer⟩

theorem balance_black_left (left : LeftLeaning c n l) (right : LeftLeaning false n r) :
    ∃ t', balance (.node l false a r) = .ok t' ∧ ∃ c', LeftLeaning c' (n + 1) t' :=
  ⟨_, balance_leaning left right, _, .black left right⟩

/-- Two reds in a row on the left become a red node with black children. -/
theorem balance_black_nearly (left : NearlyLeaning n l) (right : LeftLeaning false n r) :
    ∃ t', balance (.node l false a r) = .ok t' ∧ ∃ c', LeftLeaning c' (n + 1) t' := by
  obtain ⟨ll, la, lr, c, rfl, outer, inner⟩ := left
  cases c with
  | false => exact balance_black_left (.red outer inner) right
  | true =>
    obtain ⟨x, xa, y, rfl, left, middle⟩ := outer.exists_red
    rw [balance, leanLeft_of_black right.isRed_eq, ok_bind]
    exact ⟨_, rfl, _, .red (.black left middle) (.black inner right)⟩

/-- A red right child becomes the parent of a black left one, and beside a red one both are made
    black. -/
theorem balance_black_right (left : LeftLeaning c n l) {c' : Bool} (right : LeftLeaning c' n r) :
    ∃ t', balance (.node l false a r) = .ok t' ∧ ∃ c', LeftLeaning c' (n + 1) t' := by
  cases c' with
  | false => exact balance_black_left left right
  | true =>
    obtain ⟨rl, ra, rr, rfl, inner, outer⟩ := right.exists_red
    cases c with
    | false =>
      have lean : leanLeft (.node l false a (.node rl true ra rr)) =
          rotateLeft (.node l false a (.node rl true ra rr)) := by
        rw [leanLeft, getLeft, ok_bind, getRight, ok_bind, left.isRed_eq]
        rfl
      rw [balance, lean, rotateLeft, ok_bind, partReds_of_leaning (.red left inner), ok_bind,
        splitReds_of_black outer.isRed_eq, ok_bind]
      exact ⟨_, rfl, _, .black (.red left inner) outer⟩
    | true =>
      obtain ⟨ll, la, lr, rfl, left, middle⟩ := left.exists_red
      rw [balance, leanLeft_of_red rfl, ok_bind, partReds_of_leaning (.red left middle), ok_bind]
      exact ⟨_, rfl, _, .red (.black left middle) (.black inner outer)⟩

/-- What `Set` leaves of a left-leaning tree; under a red root it may leave a second red one. -/
def SetLeaning (c : Bool) (n : Nat) (t : RBTreeNode α) : Prop :=
  if c then NearlyLeaning n t else ∃ c', LeftLeaning c' n t

theorem SetLeaning.of_black (leaves : SetLeaning false n t) :
    ∃ c', LeftLeaning c' n t := leaves

theorem set_leaning (rt : KeyRuntime α) (hash : Int32) (key value : JSTaggedValue α)
    (leaning : LeftLeaning c n t) :
    ∃ t', set rt hash key value t = .ok t' ∧ SetLeaning c n t' := by
  induction leaning with
  | nil => exact ⟨_, rfl, true, .red .nil .nil⟩
  | @red n l r a left right ihl ihr =>
    rw [set]
    split
    · obtain ⟨l', run, c', left'⟩ := ihl
      rw [run, ok_bind]
      exact balance_red_left left' right
    · split
      · obtain ⟨r', run, c', right'⟩ := ihr
        rw [run, ok_bind]
        exact balance_red_right left right'
      · exact balance_red_left left right
  | @black n c l r a left right ihl ihr =>
    rw [set]
    split
    · obtain ⟨l', run, left'⟩ := ihl
      rw [run, ok_bind]
      cases c with
      | false =>
        obtain ⟨c', left'⟩ := left'.of_black
        exact balance_black_left left' right
      | true => exact balance_black_nearly left' right
    · split
      · obtain ⟨r', run, c', right'⟩ := ihr
        rw [run, ok_bind]
        exact balance_black_right left right'
      · exact balance_black_left left right

/-! ## The nodes -/

/-- Exactly the nodes with the hash have the key. -/
def Agrees (rt : KeyRuntime α) (hash : Int32) (key : JSTaggedValue α) (l : List (TaggedNode α)) :
    Prop :=
  ∀ node ∈ l, rt.sameValue key node.key = true ↔ node.hash = hash

def SortedByHash (l : List (TaggedNode α)) : Prop :=
  l.Pairwise fun x y => x.hash < y.hash

variable {l' entries : List (TaggedNode α)} {node : TaggedNode α}

theorem compare_lt_zero (agrees : rt.sameValue key node.key = true ↔ node.hash = hash) :
    compare rt hash key node.hash node.key < 0 ↔ hash < node.hash := by
  rw [compare]
  by_cases same : node.hash = hash
  · rw [if_pos (agrees.mpr same), same]
    simp
  · rw [if_neg fun eq => same (agrees.mp eq)]
    by_cases less : hash < node.hash <;> simp [less]

theorem compare_eq_zero (agrees : rt.sameValue key node.key = true ↔ node.hash = hash) :
    compare rt hash key node.hash node.key = 0 ↔ node.hash = hash := by
  rw [compare]
  by_cases same : node.hash = hash
  · rw [if_pos (agrees.mpr same)]
    simp [same]
  · rw [if_neg fun eq => same (agrees.mp eq)]
    by_cases less : hash < node.hash <;> simp [less, same]

/-- The nodes after a `Set`: the node of the hash has a new value, or there is a new node where the
    hash belongs. -/
structure Inserted (hash : Int32) (key value : JSTaggedValue α) (l l' : List (TaggedNode α)) :
    Prop where
  split : ∃ before old new after, l = before ++ old ++ after ∧ l' = before ++ new :: after ∧
    (∀ x ∈ before, x.hash < hash) ∧ (∀ x ∈ after, hash < x.hash) ∧
    (old = [] ∧ new = ⟨hash, key, value⟩ ∨
      ∃ node, old = [node] ∧ node.hash = hash ∧ new = { node with value := value })

theorem Inserted.append {l behind : List (TaggedNode α)} (inserted : Inserted hash key value l l')
    (above : ∀ x ∈ behind, hash < x.hash) : Inserted hash key value (l ++ behind) (l' ++ behind) := by
  obtain ⟨before, old, new, after, rfl, rfl, less, greater, node⟩ := inserted
  refine ⟨before, old, new, after ++ behind, by simp, by simp, less, ?_, node⟩
  intro x mem
  exact (List.mem_append.mp mem).elim (greater x) (above x)

theorem Inserted.prepend {l front : List (TaggedNode α)} (inserted : Inserted hash key value l l')
    (below : ∀ x ∈ front, x.hash < hash) : Inserted hash key value (front ++ l) (front ++ l') := by
  obtain ⟨before, old, new, after, rfl, rfl, less, greater, node⟩ := inserted
  refine ⟨front ++ before, old, new, after, by simp, by simp, ?_, greater, node⟩
  intro x mem
  exact (List.mem_append.mp mem).elim (below x) (less x)

/-- The nodes left of a node are below it, those right of it above. -/
theorem SortedByHash.sides {red : Bool} (sorted : SortedByHash (nodes (.node l red a r))) :
    SortedByHash (nodes l) ∧ SortedByHash (nodes r) ∧ (∀ x ∈ nodes l, x.hash < a.hash) ∧
      ∀ x ∈ nodes r, a.hash < x.hash := by
  rw [nodes_node, SortedByHash, List.pairwise_append, List.pairwise_cons] at sorted
  obtain ⟨left, ⟨above, right⟩, across⟩ := sorted
  exact ⟨left, right, fun x mem => across x mem _ List.mem_cons_self, above⟩

theorem Agrees.sides {red : Bool} (agrees : Agrees rt hash key (nodes (.node l red a r))) :
    Agrees rt hash key (nodes l) ∧ (rt.sameValue key a.key = true ↔ a.hash = hash) ∧
      Agrees rt hash key (nodes r) := by
  rw [nodes_node] at agrees
  exact ⟨fun x mem => agrees x (List.mem_append_left _ mem),
    agrees a.toTaggedNode (List.mem_append_right _ List.mem_cons_self),
    fun x mem => agrees x (List.mem_append_right _ (List.mem_cons_of_mem _ mem))⟩

/-- `Set` always returns; the key goes where its hash belongs. -/
theorem set_spec (rt : KeyRuntime α) (hash : Int32) (key value : JSTaggedValue α)
    (t : RBTreeNode α) : ∃ t', set rt hash key value t = .ok t' ∧ t' ≠ .nil ∧
      (Counted t → Counted t') ∧ (SortedByHash (nodes t) → Agrees rt hash key (nodes t) →
        Inserted hash key value (nodes t) (nodes t')) := by
  induction t with
  | nil =>
    refine ⟨_, rfl, nofun, fun _ => ⟨rfl, trivial, trivial⟩, fun _ _ => ?_⟩
    exact ⟨[], [], ⟨hash, key, value⟩, [], rfl, rfl, nofun, nofun, .inl ⟨rfl, rfl⟩⟩
  | node l red a r ihl ihr =>
    rw [set]
    split
    · rename_i less
      obtain ⟨l', run, -, counted, inserted⟩ := ihl
      obtain ⟨t', balanced, real, same, recounted⟩ :=
        balance_spec (t := .node l' red a r) nofun
      rw [run, ok_bind]
      refine ⟨t', balanced, real, fun before => recounted ⟨counted before.2.1, before.2.2⟩, ?_⟩
      intro sorted agrees
      obtain ⟨sortedL, -, -, above⟩ := sorted.sides
      obtain ⟨agreesL, agreesA, -⟩ := agrees.sides
      have less : hash < a.hash := (compare_lt_zero agreesA).mp less
      rw [same, nodes_node, nodes_node]
      refine (inserted sortedL agreesL).append fun x mem => ?_
      rcases List.mem_cons.mp mem with rfl | mem
      · exact less
      · exact Int32.lt_trans less (above x mem)
    · rename_i notLess
      split
      · rename_i greater
        obtain ⟨r', run, -, counted, inserted⟩ := ihr
        obtain ⟨t', balanced, real, same, recounted⟩ :=
          balance_spec (t := .node l red a r') nofun
        rw [run, ok_bind]
        refine ⟨t', balanced, real, fun before => recounted ⟨before.2.1, counted before.2.2⟩, ?_⟩
        intro sorted agrees
        obtain ⟨-, sortedR, below, -⟩ := sorted.sides
        obtain ⟨-, agreesA, agreesR⟩ := agrees.sides
        have greater : a.hash < hash := by
          have notLess := fun less => notLess ((compare_lt_zero agreesA).mpr less)
          have other := fun eq => (Int.ne_of_gt greater) ((compare_eq_zero agreesA).mpr eq)
          exact Int32.lt_of_le_of_ne (Int32.not_lt.mp notLess) other
        rw [same, nodes_node, nodes_node, List.append_cons, List.append_cons _ _ (nodes r')]
        refine (inserted sortedR agreesR).prepend fun x mem => ?_
        rcases List.mem_append.mp mem with mem | mem
        · exact Int32.lt_trans (below x mem) greater
        · rw [List.mem_singleton.mp mem]
          exact greater
      · rename_i notGreater
        obtain ⟨t', balanced, real, same, recounted⟩ :=
          balance_spec (t := .node l red { a with value := value } r) nofun
        refine ⟨t', balanced, real, fun before => recounted before.2, ?_⟩
        intro sorted agrees
        obtain ⟨-, -, below, above⟩ := sorted.sides
        have equal : a.hash = hash := (compare_eq_zero agrees.sides.2.1).mp (by omega)
        rw [same, nodes_node, nodes_node]
        refine ⟨nodes l, [a.toTaggedNode], { a.toTaggedNode with value := value }, nodes r, by simp,
          rfl, equal ▸ below, equal ▸ above, .inr ⟨_, rfl, equal, rfl⟩⟩

/-- What `Set` does at a node: the key is here, or the hash tells the side. -/
theorem set_node {red : Bool} (run : set rt hash key value (.node l red a r) = .ok t') :
    (rt.sameValue key a.key = true ∧
      nodes t' = nodes l ++ { a.toTaggedNode with value := value } :: nodes r) ∨
    (rt.sameValue key a.key = false ∧ hash < a.hash ∧ ∃ l', set rt hash key value l = .ok l' ∧
      nodes t' = nodes l' ++ a.toTaggedNode :: nodes r) ∨
    (rt.sameValue key a.key = false ∧ a.hash ≤ hash ∧ ∃ r', set rt hash key value r = .ok r' ∧
      nodes t' = nodes l ++ a.toTaggedNode :: nodes r') := by
  have balanced {l r : RBTreeNode α} {a : TreeRecord α}
      (run : balance (.node l red a r) = .ok t') :
      nodes t' = nodes l ++ a.toTaggedNode :: nodes r := by
    obtain ⟨t'', run', -, same, -⟩ := balance_spec (t := .node l red a r) nofun
    obtain rfl : t'' = t' := Except.ok.inj (run'.symm.trans run)
    rw [same, nodes_node]
  rw [set, compare] at run
  cases here : rt.sameValue key a.key with
  | true =>
    rw [here] at run
    exact .inl ⟨rfl, balanced run⟩
  | false =>
    rw [here] at run
    by_cases less : hash < a.hash
    · simp only [Bool.false_eq_true, if_false, less, if_true, show ((-1 : Int) < 0) by decide] at run
      obtain ⟨l', inner, outer⟩ := (bind_eq_ok ..).mp run
      exact .inr (.inl ⟨rfl, less, l', inner, balanced outer⟩)
    · simp only [Bool.false_eq_true, if_false, less, show ¬((1 : Int) < 0) by decide,
        show (1 : Int) > 0 by decide, if_true] at run
      obtain ⟨r', inner, outer⟩ := (bind_eq_ok ..).mp run
      exact .inr (.inr ⟨rfl, Int32.not_lt.mp less, r', inner, balanced outer⟩)

theorem Inserted.sorted {l : List (TaggedNode α)} (inserted : Inserted hash key value l l')
    (sorted : SortedByHash l) : SortedByHash l' := by
  obtain ⟨before, old, new, after, rfl, rfl, less, greater, node⟩ := inserted
  have same : new.hash = hash := by
    rcases node with ⟨-, rfl⟩ | ⟨node, -, equal, rfl⟩
    · rfl
    · exact equal
  rw [SortedByHash, List.append_assoc, List.pairwise_append, List.pairwise_append] at sorted
  obtain ⟨sortedB, ⟨-, sortedA, -⟩, -⟩ := sorted
  rw [SortedByHash, List.pairwise_append, List.pairwise_cons]
  refine ⟨sortedB, ⟨fun x mem => same ▸ greater x mem, sortedA⟩, fun x memX y memY => ?_⟩
  rcases List.mem_cons.mp memY with rfl | memY
  · exact same ▸ less x memX
  · exact Int32.lt_trans (less x memX) (greater y memY)

/-- A node has its hash and key from one that was there or from the call. -/
theorem Inserted.origin {l : List (TaggedNode α)} (inserted : Inserted hash key value l l') (mem : node ∈ l') :
    (∃ old ∈ l, node.hash = old.hash ∧ node.key = old.key) ∨ node.hash = hash ∧ node.key = key := by
  obtain ⟨before, old, new, after, rfl, rfl, -, -, origin⟩ := inserted
  rcases List.mem_append.mp mem with mem | mem
  · exact .inl ⟨node, by simp [mem], rfl, rfl⟩
  · rcases List.mem_cons.mp mem with rfl | mem
    · rcases origin with ⟨-, rfl⟩ | ⟨first, rfl, -, rfl⟩
      · exact .inr ⟨rfl, rfl⟩
      · exact .inl ⟨first, by simp, rfl, rfl⟩
    · exact .inl ⟨node, by simp [mem], rfl, rfl⟩

/-! ## Trees that are built by `Set` -/

/-- Different keys have different hashes, and a key that comes twice has one hash. -/
def DistinctHashes (rt : KeyRuntime α) (entries : List (TaggedNode α)) : Prop :=
  ∀ e ∈ entries, ∀ e' ∈ entries, rt.sameValue e.key e'.key = true ↔ e.hash = e'.hash

/-- A tree of the bins: left-leaning under a black root, in the order of the hashes, with right
    counts and with keys from `entries`. -/
structure TreeBin (entries : List (TaggedNode α)) (t : RBTreeNode α) : Prop where
  leaning : ∃ n, LeftLeaning false n t
  sorted : SortedByHash (nodes t)
  counted : Counted t
  origin : ∀ node ∈ nodes t, ∃ e ∈ entries, node.hash = e.hash ∧ node.key = e.key

theorem TreeBin.agrees (bin : TreeBin entries t) (keys : DistinctHashes rt entries) {e : TaggedNode α}
    (mem : e ∈ entries) : Agrees rt e.hash e.key (nodes t) := by
  intro node inTree
  obtain ⟨o, memO, hashO, keyO⟩ := bin.origin node inTree
  rw [hashO, keyO, keys e mem o memO]
  exact eq_comm

theorem setRoot_treeBin (bin : TreeBin entries t) (keys : DistinctHashes rt entries) {e : TaggedNode α}
    (mem : e ∈ entries) : ∃ t', setRoot rt t e = .ok t' ∧ TreeBin entries t' := by
  obtain ⟨n, leaning⟩ := bin.leaning
  obtain ⟨t', run, c', leaning'⟩ := set_leaning rt e.hash e.key e.value leaning
  obtain ⟨t'', run', -, counted, inserted⟩ := set_spec rt e.hash e.key e.value t
  obtain rfl : t' = t'' := Except.ok.inj (run.symm.trans run')
  have inserted := inserted bin.sorted (bin.agrees keys mem)
  refine ⟨t'.setBlack, by rw [setRoot, run]; rfl, leaning'.blacken, ?_, ?_, ?_⟩
  · rw [nodes_setBlack]
    exact inserted.sorted bin.sorted
  · exact (counted bin.counted).setBlack
  · intro node inTree
    rw [nodes_setBlack] at inTree
    rcases inserted.origin inTree with ⟨old, memOld, hashEq, keyEq⟩ | same
    · obtain ⟨o, memO, hashO, keyO⟩ := bin.origin old memOld
      exact ⟨o, memO, hashEq.trans hashO, keyEq.trans keyO⟩
    · exact ⟨e, mem, same⟩

theorem treeBin_nil (entries : List (TaggedNode α)) : TreeBin entries .nil :=
  ⟨⟨0, .nil⟩, List.Pairwise.nil, trivial, nofun⟩

/-- Calls of `Set` from an empty tree always return. -/
theorem treeing_treeBin (keys : DistinctHashes rt entries) :
    ∃ t, treeing rt entries = .ok t ∧ TreeBin entries t := by
  have go : ∀ (rest : List (TaggedNode α)), (∀ e ∈ rest, e ∈ entries) → ∀ t : RBTreeNode α,
      TreeBin entries t → ∃ t', rest.foldlM (setRoot rt) t = .ok t' ∧ TreeBin entries t' := by
    intro rest
    induction rest with
    | nil => exact fun _ t bin => ⟨t, rfl, bin⟩
    | cons e rest ih =>
      intro inside t bin
      obtain ⟨t1, run, bin1⟩ := setRoot_treeBin bin keys (inside e List.mem_cons_self)
      rw [List.foldlM_cons, run, ok_bind]
      exact ih (fun x mem => inside x (List.mem_cons_of_mem _ mem)) t1 bin1
  exact go entries (fun _ mem => mem) .nil (treeBin_nil entries)

end RBTreeNode

end ArkRuntime
