import ArkRuntime.TaggedTree.Ordered

/-!
# The array is a red-black tree

Runs of `Insert` and of `Remove` with `Shrink` on a table from `Create`, with a strict total order on
the keys. As long as no run removes the last entry of a table of capacity 31 or more, the array
encodes a red-black tree with increasing keys. That removal compacts an empty tree: `Shrink` copies
entry `-1` to entry 0 and makes it the root.
-/

namespace ArkRuntime

open ColorTree TaggedTree

variable {d : TreeDerived} {α : Type}

/-- A child slot of entry `p` names entry `e`. -/
def NamesChild (t : TaggedTree d α) (p e : Nat) : Prop :=
  t.getLeftChild p = .int e ∨ t.getRightChild p = .int e

/-- The array encodes the red-black tree `T`, in the slots of its entries only. -/
structure RedBlackArray (cmp : KeyCompare α) (t : TaggedTree d α) (T : ColorTree (TreeCell α)) : Prop where
  encodes : Encodes t T
  rootParent : T ≠ .nil → t.getParent t.getRootEntries = -1
  parents : ∀ e ∈ entriesOf T, (e : Int) ≠ t.getRootEntries →
    ∃ p ∈ entriesOf T, t.getParent e = p ∧ NamesChild t p e ∧ ∀ q, NamesChild t q e → q = p
  increasing : Increasing cmp T.toList
  balanced : ∃ m, Balanced (fun _ => False) false m T
  elements : t.numberOfElements = T.toList.length
  inside : ∀ e ∈ entriesOf T, (e : Int) < t.capacity
  length : t.length = 5 + t.capacity * d.entrySize
  outside : ∀ i : Int, i < 0 ∨ t.length ≤ i → t.get i = .hole

section Links

variable {t : TaggedTree d α} {T : ColorTree (TreeCell α)}

/-- A node's entry is named by its parent only. -/
theorem parent_of_namesChild (table : Table t T) {q e : Nat} (names : NamesChild t q e) :
    t.getParent e = q := by
  rw [NamesChild, getLeftChild_natCast, getRightChild_natCast] at names
  by_cases node : q ∈ entriesOf T
  · obtain ⟨a, mem, rfl⟩ := List.mem_map.mp node
    obtain ⟨ctx, l, red, r, rfl⟩ := exists_focus mem
    obtain ⟨-, ⟨here, -⟩, hl, hr⟩ := holds_plug.mp table.encodes.holds
    rw [here] at names
    -- the named child is the root of a subtree that hangs below the node
    have below : ∀ S : ColorTree (TreeCell α), Holds t.cells a.entry S → link S = .int e →
        t.getParent e = a.entry := by
      intro S holds linked
      cases S with
      | nil => simp [link] at linked
      | node l' red' b r' =>
        simp only [link, JSTaggedValue.int.injEq, Int.natCast_inj] at linked
        rw [← linked]
        exact getParent_rootOf (T := .node l' red' b r') holds (by simp)
    rcases names with left | right
    · exact below l hl left
    · exact below r hr right
  · obtain ⟨left, right⟩ := table.storage.unused q node
    change (t.cells q).left = _ ∨ (t.cells q).right = _ at names
    rw [left, right] at names
    simp at names

/-- The parent slot of a node that is not the root. -/
theorem parents_of_table (table : Table t T) {e : Nat} (mem : e ∈ entriesOf T)
    (notRoot : (e : Int) ≠ t.getRootEntries) :
    ∃ p ∈ entriesOf T, t.getParent e = p ∧ NamesChild t p e ∧ ∀ q, NamesChild t q e → q = p := by
  obtain ⟨a, ha, rfl⟩ := List.mem_map.mp mem
  obtain ⟨ctx, l, red, r, rfl⟩ := exists_focus ha
  cases ctx with
  | nil =>
    rw [getRootEntries_eq, table.encodes.root] at notRoot
    exact absurd rfl notRoot
  | cons f ctx =>
    have parent : t.getParent a.entry = f.a.entry :=
      getParent_focus (T := .node l red a r) table.encodes (by simp)
    refine ⟨f.a.entry, mem_entriesOf_plug.mpr (.inr (ctxParent_mem rfl)), parent, ?_, ?_⟩
    · rw [NamesChild, getLeftChild_natCast, getRightChild_natCast, table.encodes.frame.1]
      cases hs : f.side with
      | left => exact .inl rfl
      | right => exact .inr rfl
    · intro q names
      have := parent_of_namesChild table names
      rw [parent] at this
      exact_mod_cast this.symm

/-- No slot outside the array is ever written. -/
theorem outside_of_storage {es : List Nat} (storage : Storage t es) (i : Int)
    (out : i < 0 ∨ t.length ≤ i) : t.get i = .hole := by
  by_cases negative : i < 0
  · have below := congrFun storage.below i
    simpa only [hdr, if_pos negative] using below
  · have length : t.length = 5 + t.hdr.capacity * d.entrySize := storage.length
    have cap := storage.capacity
    -- the slot is a field of an entry past the capacity, and all fields of that are Holes
    have size : d.entrySize = 5 ∨ d.entrySize = 6 := by cases d <;> simp [TreeDerived.entrySize]
    obtain ⟨e, o, here, low, high, past⟩ : ∃ (e : Nat) (o : Int), i = entryToIndex d e + o ∧ 0 ≤ o ∧
        o < d.entrySize ∧ t.hdr.capacity ≤ e := by
      have bound := out.resolve_left negative
      refine ⟨((i - 5) / d.entrySize).toNat, (i - 5) % d.entrySize, ?_, ?_, ?_, ?_⟩ <;>
        rcases size with size | size <;> simp only [entryToIndex, size] at * <;> omega
    have blank := storage.outside e past
    simp only [cells, blankNode, TreeNode.mk.injEq] at blank
    obtain ⟨key, value, color, parent, left, right⟩ := blank
    rw [here]
    cases d with
    | map =>
      simp only [TreeDerived.entrySize, TreeDerived.valueIndex, TreeDerived.colorIndex,
        TreeDerived.parentIndex, TreeDerived.leftChildIndex, TreeDerived.rightChildIndex] at *
      obtain rfl | rfl | rfl | rfl | rfl | rfl : o = 0 ∨ o = 1 ∨ o = 2 ∨ o = 3 ∨ o = 4 ∨ o = 5 := by
        omega
      · rwa [Int.add_zero]
      all_goals assumption
    | set =>
      simp only [TreeDerived.entrySize, TreeDerived.valueIndex, TreeDerived.colorIndex,
        TreeDerived.parentIndex, TreeDerived.leftChildIndex, TreeDerived.rightChildIndex] at *
      obtain rfl | rfl | rfl | rfl | rfl : o = 0 ∨ o = 1 ∨ o = 2 ∨ o = 3 ∨ o = 4 := by omega
      all_goals assumption

theorem redBlackArray_of_table {cmp : KeyCompare α} (table : Table t T)
    (increasing : Increasing cmp T.toList) : RedBlackArray cmp t T where
  encodes := table.encodes
  rootParent nonempty := by
    rw [getRootEntries_eq, table.encodes.root]
    exact getParent_rootOf table.encodes.holds nonempty
  parents e mem notRoot := parents_of_table table mem notRoot
  increasing := increasing
  balanced := table.balanced
  elements := by
    have := table.storage.elements
    rwa [entriesOf, List.length_map] at this
  inside := table.storage.inside
  length := table.storage.length
  outside := outside_of_storage table.storage

end Links

/-! ## Runs -/

/-- `Insert`, and `Remove` with `Shrink` of the entry of a key. -/
inductive TreeOp (α : Type) where
  | insert (key value : JSTaggedValue α)
  | remove (key : JSTaggedValue α)

namespace TreeOp

def step (env : CompareEnv α) (t : TaggedTree d α) : TreeOp α → Option (TaggedTree d α)
  | .insert key value => (t.insert env key value).map (·.tableAfter id t)
  | .remove key => deleteKey env t key

/-- The operation uses a key of `K`; the value of a set entry is its key. -/
def Uses (d : TreeDerived) (K : JSTaggedValue α → Prop) : TreeOp α → Prop
  | .insert key value => K key ∧ (d = .set → value = key)
  | .remove key => K key

/-- The operation does not take the last entry out of a table that is then shrunk. -/
def KeepsRoot (env : CompareEnv α) (t : TaggedTree d α) : TreeOp α → Prop
  | .insert _ _ => True
  | .remove key => HasKey env t key → t.numberOfElements = 1 → t.capacity < 31

instance (env : CompareEnv α) (t : TaggedTree d α) (op : TreeOp α) : Decidable (op.KeepsRoot env t) :=
  match op with
  | .insert _ _ => isTrue trivial
  | .remove key => inferInstanceAs (Decidable (HasKey env t key → _))

end TreeOp

/-- One operation keeps an ordered table ordered. -/
theorem TreeOp.step_ordered {env : CompareEnv α} {K : JSTaggedValue α → Prop}
    (order : TotalOrderOn (compareBy env .hole) K) (notHole : ∀ k, K k → k ≠ .hole)
    {t : TaggedTree d α} {T : ColorTree (TreeCell α)} (h : Ordered env .hole K t T) (op : TreeOp α)
    (uses : op.Uses d K) (keeps : op.KeepsRoot env t) :
    ∃ t', op.step env t = some t' ∧ ∃ T', Ordered env .hole K t' T' := by
  cases op with
  | insert key value =>
    obtain ⟨hk, setKey⟩ := uses
    obtain ⟨t', run, full, other⟩ := h.insert order hk (notHole key hk) setKey fun _ _ => rfl
    refine ⟨t', by rw [step, run]; rfl, ?_⟩
    by_cases lost : HasKey env t key ∧ Full t
    · rw [full lost.1 lost.2]
      exact ⟨T, h⟩
    · obtain ⟨T', ordered, -⟩ := other lost
      exact ⟨T', ordered⟩
  | remove key =>
    obtain ⟨t', T', run, ordered, -⟩ := h.delete order uses fun here small => ⟨rfl, fun last => by
      have := keeps here last
      have high := small.2
      simp only [capacity_eq] at this
      omega⟩
    exact ⟨t', run, T', ordered⟩

/-- Every run leaves an ordered table. -/
theorem ordered_of_run (env : CompareEnv α) (K : JSTaggedValue α → Prop)
    (order : TotalOrderOn env.ordinary K) (notHole : ∀ k, K k → k ≠ .hole) (n : Int)
    (ops : List (TreeOp α)) (uses : ∀ op ∈ ops, op.Uses d K)
    (allowed : Allowed (TreeOp.step env) (fun t op => op.KeepsRoot env t) (create d α n) ops) :
    ∃ t, run (TreeOp.step env) (create d α n) ops = some t ∧ ∃ T, Ordered env .hole K t T := by
  have start : Ordered env .hole K (create d α n) .nil :=
    ⟨create_table n, rfl, by simp [toList], by simp [Increasing, toList]⟩
  rw [← compareBy_hole] at order
  exact run_invariant
    (I := fun t : TaggedTree d α => ∃ T, Ordered env .hole K t T)
    (fun t op inv ok => by
      obtain ⟨T, h⟩ := inv
      exact op.step_ordered order notHole h ok.1 ok.2)
    ops _ ⟨.nil, start⟩ (allowed.and_forall uses)

theorem redBlackArray_of_run (env : CompareEnv α) (K : JSTaggedValue α → Prop)
    (order : TotalOrderOn env.ordinary K) (notHole : ∀ k, K k → k ≠ .hole) (n : Int)
    (ops : List (TreeOp α)) (uses : ∀ op ∈ ops, op.Uses d K)
    (allowed : Allowed (TreeOp.step env) (fun t op => op.KeepsRoot env t) (create d α n) ops) :
    ∃ t T, run (TreeOp.step env) (create d α n) ops = some t ∧ RedBlackArray env.ordinary t T := by
  obtain ⟨t, reached, T, ordered⟩ := ordered_of_run env K order notHole n ops uses allowed
  exact ⟨t, T, reached, redBlackArray_of_table ordered.table ordered.increasing⟩

theorem redBlackArray_of_run_three :
    ∃ t T, run (TreeOp.step (numberEnv Unit)) (create .map Unit 7)
        [.insert (.int 2) (.int 0), .insert (.int 1) (.int 0), .remove (.int 2)] = some t ∧
      RedBlackArray (numberEnv Unit).ordinary t T :=
  redBlackArray_of_run (numberEnv Unit) IsInt numberEnv_order (by rintro _ ⟨i, rfl⟩; simp) 7 _
    (by simp [TreeOp.Uses, IsInt]) (by decide +kernel)

/-- A table made with room for 31 entries, one insertion, and the removal of that entry: the root
    is entry 0 although there is no element. -/
theorem redBlackArray_fails_after_shrink :
    TotalOrderOn (numberEnv Unit).ordinary IsInt ∧
    (∀ op ∈ [TreeOp.insert (.int 1) (.int 0), TreeOp.remove (.int 1)], op.Uses .map (IsInt (α := Unit))) ∧
    ∃ t, run (TreeOp.step (numberEnv Unit)) (create .map Unit 31)
        [.insert (.int 1) (.int 0), .remove (.int 1)] = some t ∧
      ∀ T, ¬ RedBlackArray (numberEnv Unit).ordinary t T := by
  refine ⟨numberEnv_order, by simp [TreeOp.Uses, IsInt], ?_⟩
  have state : (run (TreeOp.step (numberEnv Unit)) (create .map Unit 31)
      [.insert (.int 1) (.int 0), .remove (.int 1)]).map
        (fun t => (t.getRootEntries, t.numberOfElements)) = some (0, 0) := by decide +kernel
  obtain ⟨t, reached, header⟩ := Option.map_eq_some_iff.mp state
  refine ⟨t, reached, fun T array => ?_⟩
  simp only [Prod.mk.injEq] at header
  have empty := array.elements
  rw [header.2] at empty
  cases T with
  | nil =>
    have root := array.encodes.root
    rw [← getRootEntries_eq, header.1] at root
    simp [rootOf] at root
  | node l red a r =>
    simp only [toList, List.length_append, List.length_cons] at empty
    omega

end ArkRuntime
