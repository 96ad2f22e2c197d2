import ArkRuntime.TaggedTree.Table

/-!
# `Remove` and `Shrink`

`Remove` unlinks a node that has at most one child: the node itself, or its successor, whose key
and value it has taken over. A black leaf is rebalanced away while it is still linked, and any other
node is replaced by its child first.
-/

namespace ArkRuntime

open ColorTree

variable {d : TreeDerived} {α : Type}

namespace TaggedTree

/-! ## `Transplant` -/

section Transplant

variable {t : TaggedTree d α} {ctx : List (RBFrame (TreeCell α))} {D C : ColorTree (TreeCell α)}

/-- The child slot that `Transplant` writes. -/
theorem transplant_link (C : ColorTree (TreeCell α)) :
    (if rootOf C < 0 then (.hole : JSTaggedValue α) else .int (rootOf C)) = link C := by
  cases C with
  | nil => rfl
  | node l red a r => rw [rootOf, if_neg (by omega)]; rfl

/-- `SetParent` on the root of `C`, or on no entry. -/
theorem cells_setParent_rootOf (t : TaggedTree d α) (C : ColorTree (TreeCell α)) (v : JSTaggedValue α)
    (e : Nat) : (t.setParent (rootOf C) v).cells e =
      if (e : Int) = rootOf C then { t.cells e with parent := v } else t.cells e := by
  cases C with
  | nil => rw [if_neg (by simp only [rootOf]; omega)]; rfl
  | node l red a r =>
    simp only [rootOf, cells_setParent, Function.update_apply, Int.natCast_inj]
    split_ifs with h
    · rw [h]
    · rfl

theorem hdr_setParent_rootOf (t : TaggedTree d α) (C : ColorTree (TreeCell α)) (v : JSTaggedValue α) :
    (t.setParent (rootOf C) v).hdr = t.hdr := by
  cases C with
  | nil => rfl
  | node l red a r => exact hdr_setParent t a.entry v

/-- The write of `Transplant` to the parent, or to the root slot. -/
def relinkParent (t : TaggedTree d α) (dst : Int) (C : ColorTree (TreeCell α)) : TaggedTree d α :=
  if t.getParent dst < 0 then t.setRootEntries (rootOf C)
  else if t.isLeft dst then t.setLeftChild (t.getParent dst) (link C)
  else t.setRightChild (t.getParent dst) (link C)

theorem transplant_eq (t : TaggedTree d α) (dst : Int) (C : ColorTree (TreeCell α)) :
    t.transplant dst (rootOf C) =
      (relinkParent t dst C).setParent (rootOf C) (.int (t.getParent dst)) := by
  rw [transplant, transplant_link]
  rfl

theorem relinkParent_cells (enc : Encodes t (plug ctx D)) (nonempty : D ≠ .nil) :
    (relinkParent t (rootOf D) C).hdr =
        { t.hdr with root := if ctx = [] then rootOf C else t.hdr.root } ∧
      (∀ e : Nat, (e : Int) ≠ ctxParent ctx → (relinkParent t (rootOf D) C).cells e = t.cells e) ∧
      (∀ f rest, ctx = f :: rest → (relinkParent t (rootOf D) C).cells f.a.entry =
        (t.cells f.a.entry).withChild f.side (link C)) := by
  cases ctx with
  | nil =>
    have parent : t.getParent (rootOf D) = -1 := getParent_rootOf enc.holds nonempty
    simp [relinkParent, parent]
  | cons f ctx =>
    have parent := getParent_focus enc nonempty
    have left := isSide_focus enc nonempty .left
    have write : relinkParent t (rootOf D) C = setChild f.side t f.a.entry (link C) := by
      rw [relinkParent, parent, if_neg (by omega), isLeft_eq, left]
      cases f.side <;> rfl
    rw [write]
    refine ⟨by simp, ?_, ?_⟩
    · intro e he
      rw [cells_setChild, Function.update_of_ne fun heq => he (by rw [heq]; rfl)]
    · rintro g rest heq
      cases heq
      rw [cells_setChild, Function.update_self]

variable {s : Side} {c : Bool} {m : TreeCell α}

/-- `Transplant` puts the only child in the place of a node. -/
theorem transplant_encodes (enc : Encodes t (plug ctx (join s C c m .nil))) :
    Encodes (t.transplant m.entry (rootOf C)) (plug ctx C) ∧
      Edits (entriesOf (plug ctx C)) t (t.transplant m.entry (rootOf C)) := by
  have nonempty := join_ne_nil s C .nil c m
  obtain ⟨hctx, hfocus⟩ := holds_plug.mp enc.holds
  obtain ⟨dfocus, dctx, apart⟩ := nodup_plug.mp enc.distinct
  obtain ⟨-, hC, -⟩ := holds_join.mp hfocus
  obtain ⟨mC, -, dC, -, -⟩ := nodup_join.mp dfocus
  simp only [mem_entriesOf_join] at apart
  have parent : t.getParent m.entry = ctxParent ctx := by
    have := getParent_rootOf hfocus nonempty
    rwa [rootOf_join] at this
  obtain ⟨hdr, keep, changed⟩ := relinkParent_cells (C := C) enc nonempty
  rw [rootOf_join] at hdr keep changed
  rw [transplant_eq, parent]
  have cells := cells_setParent_rootOf (relinkParent t m.entry C) C (.int (ctxParent ctx))
  have hdr' := hdr_setParent_rootOf (relinkParent t m.entry C) C (.int (ctxParent ctx))
  generalize (relinkParent t m.entry C).setParent (rootOf C) (.int (ctxParent ctx)) = t' at cells hdr'
  have outer : ∀ e ∈ ctxEntries ctx, (e : Int) ≠ rootOf C :=
    fun e he h => apart e (.inr (.inl (rootOf_mem h))) he
  have inner : ∀ e ∈ entriesOf C, (e : Int) ≠ ctxParent ctx :=
    fun e he h => apart e (.inr (.inl he)) (ctxParent_mem h)
  refine ⟨⟨?_, holds_plug.mpr ⟨?_, ?_⟩, nodup_plug.mpr ⟨dC, dctx, ?_⟩⟩, ?_, ?_⟩
  · rw [hdr', hdr]
    cases ctx with
    | nil => rfl
    | cons f ctx =>
      simp only [reduceCtorEq, if_false, enc.root]
      exact rootOf_plug_cons f ctx _ _
  · refine hctx.relink dctx ?_ ?_
    · intro e he notParent
      rw [cells, if_neg (outer e he), keep e notParent]
    · rintro f rest heq
      rw [cells, if_neg (outer _ (ctxParent_mem (by rw [heq]; rfl))), changed f rest heq]
  · refine hC.reparent dC fun e he => ?_
    rw [cells, keep e (inner e he)]
  · exact fun e he => apart e (.inr (.inl he))
  · rw [hdr', hdr]
  · intro e he
    rw [mem_entriesOf_plug, not_or] at he
    rw [cells, if_neg fun h => he.1 (rootOf_mem h), keep e fun h => he.2 (ctxParent_mem h)]

end Transplant

/-! ## The end of `Remove` -/

/-- The entry is cleared and the counters are updated. -/
def finishRemove (t : TaggedTree d α) (entry : Int) : TaggedTree d α :=
  let t := t.removeEntry entry
  let t := t.setNumberOfElements (t.numberOfElements - 1)
  t.setNumberOfDeletedElements (t.numberOfDeletedElements + 1)

theorem cells_finishRemove (t : TaggedTree d α) (m e : Nat) :
    (finishRemove t m).cells e =
      if e = m then { (blankNode : TreeNode α) with color := (t.cells m).color } else t.cells e := by
  simp only [finishRemove, cells_setNumberOfDeletedElements, cells_setNumberOfElements, removeEntry,
    cells_setValue, cells_setRightChild, cells_setLeftChild, cells_setParent, cells_setKey,
    Function.update_idem, Function.update_self, Function.update_apply]
  by_cases h : e = m
  · rw [if_pos h, if_pos h]
    cases d <;> rfl
  · simp only [if_neg h]

theorem hdr_finishRemove (t : TaggedTree d α) (m : Nat) :
    (finishRemove t m).hdr =
      { t.hdr with elements := t.hdr.elements - 1, deleted := t.hdr.deleted + 1 } := by
  simp [finishRemove, removeEntry]

theorem finishRemove_table {t : TaggedTree d α} {T : ColorTree (TreeCell α)} {m : Nat}
    (enc : Encodes t T) (balanced : ∃ k, Balanced NoneAbsent false k T)
    (storage : Storage t (m :: entriesOf T)) (gone : m ∉ entriesOf T) : Table (finishRemove t m) T := by
  have cells := cells_finishRemove t m
  have same : ∀ e, e ≠ m → (finishRemove t m).cells e = t.cells e := fun e he => by
    rw [cells, if_neg he]
  have size := storage.elements
  refine ⟨⟨by rw [hdr_finishRemove]; exact enc.root, ?_, enc.distinct⟩, balanced, ?_⟩
  · exact enc.holds.congr fun e he => same e fun h => gone (h ▸ he)
  · have deleted := storage.deleted
    have hdr := hdr_finishRemove t m
    refine ⟨?_, by rw [hdr]; exact Int.add_nonneg deleted (by decide), ?_, ?_, ?_,
      by rw [hdr]; exact storage.capacity, by rw [hdr]; exact storage.length, ?_,
      by rw [hdr]; exact storage.below⟩
    · rw [hdr, size, List.length_cons]
      push_cast
      omega
    · intro e he
      have := storage.used e (List.mem_cons_of_mem _ he)
      rw [hdr]
      show (e : Int) < t.hdr.elements - 1 + (t.hdr.deleted + 1)
      omega
    · rw [hdr]
      exact fun e he => storage.inside e (List.mem_cons_of_mem _ he)
    · intro e he
      by_cases h : e = m
      · rw [cells, if_pos h]
        exact ⟨rfl, rfl⟩
      · rw [same e h]
        exact storage.unused e (by simp [h, he])
    · rw [hdr]
      intro e he
      have inside := storage.inside m List.mem_cons_self
      rw [same e (by rintro rfl; exact absurd inside (by simpa using he))]
      exact storage.outside e he

/-- `Remove` from where the node to be unlinked is known. -/
def unlink (tree : TaggedTree d α) (successor : Int) : Option (TaggedTree d α) := do
  let left := tree.getLeftChild successor
  let right := tree.getRightChild successor
  let child := if left.isHole then childEntry right else left.getInt
  let tree ←
    if child < 0 ∧ tree.getColor successor = .black then tree.deleteRebalance successor
    else pure tree
  let tree := tree.transplant successor child
  let tree ←
    if 0 ≤ child ∧ tree.getColor successor = .black then tree.deleteRebalance child
    else pure tree
  pure (finishRemove tree successor)

theorem remove_eq (tree : TaggedTree d α) (entry : Int) :
    tree.remove entry =
      if (tree.getLeftChild entry).isHole = false ∧ (tree.getRightChild entry).isHole = false then
        (tree.getSuccessor entry).bind fun successor =>
          unlink (tree.copyData entry successor) successor
      else unlink tree entry := by
  unfold remove
  split_ifs with h
  · simp only [Option.bind_eq_bind, Option.pure_def, Option.bind_some]
    rfl
  · rfl

section Unlink

variable {t : TaggedTree d α} {ctx : List (RBFrame (TreeCell α))} {C : ColorTree (TreeCell α)} {s : Side}
  {c : Bool} {m : TreeCell α}

/-- The child that the code finds at a node with at most one. -/
theorem onlyChild (enc : Encodes t (plug ctx (join s C c m .nil))) :
    (if (t.getLeftChild m.entry).isHole then childEntry (t.getRightChild m.entry)
      else (t.getLeftChild m.entry).getInt) = rootOf C := by
  obtain ⟨-, hfocus⟩ := holds_plug.mp enc.holds
  obtain ⟨⟨here, -⟩, -, -⟩ := holds_join.mp hfocus
  rw [getLeftChild_natCast, getRightChild_natCast, here]
  cases s <;> cases C <;> rfl

theorem getColor_focus {T : ColorTree (TreeCell α)} (enc : Encodes t (plug ctx T)) :
    t.getColor (rootOf T) = .ofRed T.isRed :=
  getColor_rootOf (holds_plug.mp enc.holds).2

/-- The state after the node has been taken out of the tree. -/
structure Unlinked (t : TaggedTree d α) (ctx : List (RBFrame (TreeCell α))) (C : ColorTree (TreeCell α))
    (t' : TaggedTree d α) (T : ColorTree (TreeCell α)) (L : List (TreeCell α)) : Prop where
  encodes : Encodes t' T
  balanced : ∃ k, Balanced NoneAbsent false k T
  edits : Edits (L.map TreeCell.entry) t t'
  labels : T.toList = labelsBefore ctx ++ C.toList ++ labelsAfter ctx

/-- A black leaf is rebalanced away before it is unlinked: it counts as absent. -/
theorem unlink_blackLeaf (table : Table t (plug ctx (.node .nil false m .nil))) :
    ∃ t' T, unlink t m.entry = some (finishRemove t' m.entry) ∧
      Unlinked t ctx .nil t' T (plug ctx (.node .nil false m .nil)).toList := by
  have enc := table.encodes
  obtain ⟨-, -, apart⟩ := nodup_plug.mp enc.distinct
  have child := onlyChild (s := .left) (C := .nil) (c := false) enc
  have color : t.getColor m.entry = .black := getColor_focus enc
  -- the leaf is the only label that counts as absent
  let P : TreeCell α → Prop := fun a => a.entry = m.entry
  have others : ∀ a ∈ ctxLabels ctx, ¬ P a := by
    intro a ha same
    exact apart m.entry (by simp [entriesOf, toList]) (same ▸ List.mem_map_of_mem ha)
  have around : CtxBalanced P false 1 ctx := by
    obtain ⟨k, balanced⟩ := table.balanced
    obtain ⟨c, n, focus, around⟩ := balanced.of_plug (.inl (by simp))
    cases focus with
    | absent marked => exact marked.elim
    | black _ hl _ =>
      cases hl
      exact around.mono (fun _ _ => id) others
  obtain ⟨t1, T1, k, run, rearranged, balanced⟩ := deleteRebalance_spec enc (by simp)
    (.absent (P := P) rfl) around table.length_le
  obtain ⟨ctx1, rfl, around1⟩ := balanced.exists_absent (a := m) rfl (by
    rw [rearranged.labels, toList_plug]
    simp [toList])
  obtain ⟨enc2, edits2⟩ := transplant_encodes (s := .left) (C := .nil) (c := false) rearranged.encodes
  have distinct1 := rearranged.encodes.distinct
  have away1 : ∀ a ∈ (plug ctx1 .nil).toList, ¬ P a := by
    intro a ha same
    obtain ⟨-, -, apart1⟩ := nodup_plug.mp distinct1
    refine apart1 m.entry (by simp [entriesOf, toList]) ?_
    have mem := (toList_plug_perm ctx1 .nil).mem_iff.mp ha
    exact same ▸ List.mem_map_of_mem (by simpa [toList] using mem)
  have labels1 := rearranged.labels
  refine ⟨_, _, ?_, enc2, ?_, ?_, ?_⟩
  · simp only [unlink, child, rootOf, color, Int.reduceNeg, Int.reduceLT, Int.reduceLE, and_self,
      if_true, false_and, if_false]
    rw [show t.deleteRebalance m.entry = some t1 from run]
    rfl
  · obtain ⟨k', balanced'⟩ := around1.plug .nil
    exact ⟨k', balanced'.mono away1 fun _ _ => id⟩
  · refine rearranged.edits.trans edits2 ?_
    intro e he
    rw [← labels1]
    have : e ∈ entriesOf (plug ctx1 (.node .nil false m .nil)) := by
      rw [mem_entriesOf_plug] at he ⊢
      exact .inr (he.resolve_left (by simp [entriesOf, toList]))
    exact this
  · -- both lists are the labels other than the leaf
    have without : ∀ ctx' : List (RBFrame (TreeCell α)), (∀ a ∈ ctxLabels ctx', ¬ P a) →
        (plug ctx' (.node .nil false m .nil)).toList.filter (fun a => a.entry ≠ m.entry) =
          labelsBefore ctx' ++ labelsAfter ctx' := by
      intro ctx' away
      have keep : ∀ a ∈ labelsBefore ctx' ++ labelsAfter ctx', a.entry ≠ m.entry :=
        fun a ha => away a ((labels_perm ctx').mem_iff.mp ha)
      simp only [List.mem_append] at keep
      rw [toList_plug, List.filter_append, List.filter_append,
        List.filter_eq_self.mpr fun a ha => decide_eq_true (keep a (.inl ha)),
        List.filter_eq_self.mpr fun a ha => decide_eq_true (keep a (.inr ha))]
      simp [toList]
    have away1' : ∀ a ∈ ctxLabels ctx1, ¬ P a := fun a ha => away1 a (by
      rw [(toList_plug_perm ctx1 .nil).mem_iff]
      exact List.mem_append_right _ ha)
    rw [toList_plug]
    simp only [toList, List.append_nil]
    rw [← without ctx1 away1', ← without ctx others, labels1]

/-- Any other leaf is unlinked at once. -/
theorem unlink_redLeaf (table : Table t (plug ctx (.node .nil true m .nil))) :
    ∃ t' T, unlink t m.entry = some (finishRemove t' m.entry) ∧
      Unlinked t ctx .nil t' T (plug ctx (.node .nil true m .nil)).toList := by
  have enc := table.encodes
  have child := onlyChild (s := .left) (C := .nil) (c := true) enc
  have color : t.getColor m.entry = .red := getColor_focus enc
  obtain ⟨enc1, edits1⟩ := transplant_encodes (s := .left) (C := .nil) (c := true) enc
  obtain ⟨k, balanced⟩ := table.balanced
  obtain ⟨c, n, focus, around⟩ := balanced.of_plug (.inl (by simp))
  refine ⟨_, _, ?_, enc1, ?_, ?_, ?_⟩
  · simp only [unlink, child, rootOf, color, Int.reduceNeg, Int.reduceLT, Int.reduceLE, reduceCtorEq,
      and_false, false_and, if_false]
    rfl
  · cases focus with
    | red _ hl _ => exact around.weaken.plug hl
  · refine (Edits.refl _ t).trans edits1 fun e he => ?_
    have : e ∈ entriesOf (plug ctx (.node .nil true m .nil)) := by
      rw [mem_entriesOf_plug] at he ⊢
      exact .inr (he.resolve_left (by simp [entriesOf, toList]))
    exact this
  · rw [toList_plug]

/-- In a balanced tree the only child of a node is a red leaf, and the node is black. -/
theorem onlyChild_red {k : Nat} (balanced : Balanced NoneAbsent false k (plug ctx (join s C c m .nil)))
    (nonempty : C ≠ .nil) :
    c = false ∧ Balanced NoneAbsent true 0 C ∧ CtxBalanced NoneAbsent false 1 ctx := by
  obtain ⟨c', n, focus, around⟩ := balanced.of_plug (.inl (join_ne_nil _ _ _ _ _))
  have black : ∀ {T : ColorTree (TreeCell α)}, Balanced NoneAbsent false 0 T → T = .nil := by
    intro T h
    cases h with
    | nil => rfl
    | absent marked => exact marked.elim
  cases c with
  | true =>
    obtain ⟨-, -, hC, hnil⟩ := focus.of_join_red
    cases hnil
    exact absurd (black hC) nonempty
  | false =>
    cases n with
    | zero =>
      have := focus.isRed_eq
      rw [isRed_join] at this
      subst this
      exact absurd (black focus) (join_ne_nil _ _ _ _ _)
    | succ n =>
      obtain ⟨rfl, -, c1, c2, hC, hnil⟩ := focus.of_join_black
      cases hnil
      cases c1 with
      | true => exact ⟨rfl, hC, around⟩
      | false => exact absurd (black hC) nonempty

/-- A node with a child is replaced by it, and the child is blackened. -/
theorem unlink_child (table : Table t (plug ctx (join s C c m .nil))) (nonempty : C ≠ .nil) :
    ∃ t' T, unlink t m.entry = some (finishRemove t' m.entry) ∧
      Unlinked t ctx C t' T (plug ctx (join s C c m .nil)).toList := by
  have enc := table.encodes
  obtain ⟨k, balanced⟩ := table.balanced
  obtain ⟨rfl, redC, around⟩ := onlyChild_red balanced nonempty
  have child := onlyChild enc
  obtain ⟨enc1, edits1⟩ := transplant_encodes enc
  obtain ⟨dfocus, -, apart⟩ := nodup_plug.mp enc.distinct
  obtain ⟨mC, -, -, -, -⟩ := nodup_join.mp dfocus
  have out : m.entry ∉ entriesOf (plug ctx C) := by
    rw [mem_entriesOf_plug, not_or]
    exact ⟨mC, apart _ (mem_entriesOf_join.mpr (.inl rfl))⟩
  have inside : ∀ e ∈ entriesOf (plug ctx C), e ∈ entriesOf (plug ctx (join s C false m .nil)) := by
    intro e he
    rw [mem_entriesOf_plug] at he ⊢
    exact he.imp_left fun h => mem_entriesOf_join.mpr (.inr (.inl h))
  have color : (t.transplant m.entry (rootOf C)).getColor m.entry = .black := by
    have := getColor_focus enc
    rw [rootOf_join, isRed_join] at this
    rw [getColor_natCast, edits1.cells _ out, ← getColor_natCast, this]
    rfl
  obtain ⟨t2, T2, k2, run, rearranged, balanced2⟩ :=
    deleteRebalance_red enc1 redC.isRed_eq redC.blacken around
  have nonneg : 0 ≤ rootOf C := by
    cases C with
    | nil => exact absurd rfl nonempty
    | node l red a r => simp [rootOf]
  refine ⟨t2, T2, ?_, rearranged.encodes, ⟨k2, balanced2⟩, ?_, ?_⟩
  · simp only [unlink, child, Int.not_lt.mpr nonneg, false_and, if_false, nonneg, true_and]
    simp only [Option.pure_def, Option.bind_eq_bind, Option.bind_some, color, if_true, run]
  · refine ((Edits.refl _ t).trans edits1 inside).trans rearranged.edits inside
  · rw [rearranged.labels, toList_plug]

/-- The end of `Remove` takes the node out of the table. -/
theorem unlink_spec (table : Table t (plug ctx (join s C c m .nil))) :
    ∃ t' T, unlink t m.entry = some t' ∧ Table t' T ∧
      T.toList = labelsBefore ctx ++ C.toList ++ labelsAfter ctx ∧
      t'.hdr = { t.hdr with
        elements := t.hdr.elements - 1, deleted := t.hdr.deleted + 1, root := t'.hdr.root } := by
  have taken : ∃ t' T, unlink t m.entry = some (finishRemove t' m.entry) ∧
      Unlinked t ctx C t' T (plug ctx (join s C c m .nil)).toList := by
    by_cases nonempty : C = .nil
    · subst nonempty
      have leaf : join s .nil c m .nil = .node .nil c m .nil := by cases s <;> rfl
      rw [leaf] at table ⊢
      cases c with
      | true => exact unlink_redLeaf table
      | false => exact unlink_blackLeaf table
    · exact unlink_child table nonempty
  obtain ⟨t', T, run, h⟩ := taken
  have perm : (m :: T.toList).Perm (plug ctx (join s C c m .nil)).toList := by
    rw [h.labels, toList_plug]
    refine List.Perm.trans ?_ ((toList_join_perm s C .nil c m).symm.append_left
      (labelsBefore ctx) |>.append_right (labelsAfter ctx))
    simp only [toList, List.append_nil, List.append_assoc, List.cons_append]
    exact List.perm_middle.symm
  have entries : (m.entry :: entriesOf T).Perm (entriesOf (plug ctx (join s C c m .nil))) :=
    perm.map TreeCell.entry
  have storage : Storage t' (m.entry :: entriesOf T) :=
    (table.storage.edits h.edits).perm entries
  have gone : m.entry ∉ entriesOf T :=
    (List.nodup_cons.mp (entries.nodup_iff.mpr table.encodes.distinct)).1
  refine ⟨_, T, run, finishRemove_table h.encodes h.balanced storage gone, h.labels, ?_⟩
  rw [hdr_finishRemove, h.edits.hdr]


end Unlink

/-! ## The successor -/

/-- `GetMinimum` and `GetMaximum` in one: down to side `s` as far as it goes. -/
def outermost (s : Side) (t : TaggedTree d α) (entry : Int) : Option Int :=
  iter (fun entry =>
    let child := getChild s t entry
    if child.isHole then .inr entry else .inl child.getInt) t.fuel entry

theorem outermost_iter {t : TaggedTree d α} {S : ColorTree (TreeCell α)} {p : Int} (s : Side)
    (fuel : Nat) (holds : Holds t.cells p S) (nonempty : S ≠ .nil) (enough : S.toList.length ≤ fuel) :
    ∃ ctx c m r, S = plug ctx (join s .nil c m r) ∧ (∀ f ∈ ctx, f.side = s) ∧
      iter (fun entry =>
        let child := getChild s t entry
        if child.isHole then .inr entry else .inl child.getInt) fuel (rootOf S) = some (m.entry : Int) := by
  induction fuel generalizing S p with
  | zero =>
    have := length_toList_pos nonempty
    omega
  | succ fuel ih =>
    obtain ⟨near, red, a, far, rfl⟩ := exists_join_of_ne_nil s nonempty
    obtain ⟨⟨here, -⟩, hnear, -⟩ := holds_join.mp holds
    have child : getChild s t a.entry = link near := by rw [getChild_natCast, here, child_nodeRec]
    have shorter := (toList_join_perm s near far red a).length_eq
    simp only [List.length_cons, List.length_append] at shorter
    rw [rootOf_join]
    by_cases empty : near = .nil
    · subst empty
      exact ⟨[], red, a, far, rfl, by simp, iter_inr fuel (by simp [child, link])⟩
    · obtain ⟨ctx, c, m, r, same, sides, run⟩ := ih hnear empty (by omega)
      refine ⟨ctx ++ [⟨s, red, a, far⟩], c, m, r, ?_, ?_, ?_⟩
      · rw [plug_append, ← same]
        rfl
      · intro f hf
        rcases List.mem_append.mp hf with hf | hf
        · exact sides f hf
        · rw [List.mem_singleton.mp hf]
      · rw [← run]
        exact iter_inl fuel (by simp [child, link_eq_int empty])

theorem labelsBefore_of_left {ctx : List (RBFrame (TreeCell α))} (sides : ∀ f ∈ ctx, f.side = .left) :
    labelsBefore ctx = [] := by
  induction ctx with
  | nil => rfl
  | cons f ctx ih =>
    rw [labelsBefore, ih fun g hg => sides g (List.mem_cons_of_mem _ hg), sides f List.mem_cons_self]
    rfl

theorem getSuccessor_spec {t : TaggedTree d α} {ctx : List (RBFrame (TreeCell α))}
    {l r : ColorTree (TreeCell α)} {red : Bool} {a : TreeCell α} (table : Table t (plug ctx (.node l red a r)))
    (nonempty : r ≠ .nil) :
    ∃ inner c m mr, r = plug inner (.node .nil c m mr) ∧ labelsBefore inner = [] ∧
      t.getSuccessor a.entry = some (m.entry : Int) := by
  obtain ⟨-, ⟨here, -⟩, -, hr⟩ := holds_plug.mp table.encodes.holds
  have small := table.length_le
  have enough : r.toList.length ≤ t.fuel := by
    simp only [toList_plug, toList, List.length_append, List.length_cons] at small
    simp only [fuel, capacity_eq]
    omega
  obtain ⟨inner, c, m, mr, same, sides, run⟩ := outermost_iter .left _ hr nonempty enough
  have before := labelsBefore_of_left sides
  have child : t.getRightChildIndex a.entry = rootOf r := by
    rw [getRightChildIndex, getRightChild_natCast, here]
    exact childEntry_link r
  have nonneg : 0 ≤ rootOf r := by
    cases r with
    | nil => exact absurd rfl nonempty
    | node _ _ _ _ => simp [rootOf]
  refine ⟨inner, c, m, mr, same, before, ?_⟩
  rw [getSuccessor, child]
  simp only [if_pos nonneg]
  exact run

/-- `CopyData` between two entries. -/
theorem cells_copyData (t : TaggedTree d α) {dst src : Nat} (ne : src ≠ dst) :
    (t.copyData dst src).cells = Function.update t.cells dst
      { t.cells dst with key := (t.cells src).key, value := (t.cells src).value } := by
  have sameValue : d = .set → (t.cells src).value = (t.cells src).key := by
    rintro rfl
    exact value_eq_key_of_set t src
  simp only [copyData, cells_setValue, cells_setKey, getKey_natCast, getValue_natCast,
    Function.update_self, Function.update_of_ne ne, Function.update_idem]
  congr 1
  cases d with
  | map => rfl
  | set => simp [TreeNode.withKey, TreeNode.withValue, sameValue rfl]

theorem hdr_copyData (t : TaggedTree d α) (dst src : Nat) : (t.copyData dst src).hdr = t.hdr := by
  simp [copyData]

/-! ## `Remove` as a whole -/

/-- `Remove` takes one node out of the table, whatever its place. -/
theorem remove_spec {t : TaggedTree d α} {ctx : List (RBFrame (TreeCell α))} {l r : ColorTree (TreeCell α)}
    {red : Bool} {a : TreeCell α} (table : Table t (plug ctx (.node l red a r))) :
    ∃ t' T, t.remove a.entry = some t' ∧ Table t' T ∧
      T.toList.map TreeCell.data = (labelsBefore ctx ++ l.toList).map TreeCell.data ++
        (r.toList ++ labelsAfter ctx).map TreeCell.data ∧
      t'.hdr = { t.hdr with
        elements := t.hdr.elements - 1, deleted := t.hdr.deleted + 1, root := t'.hdr.root } := by
  obtain ⟨-, ⟨here, -⟩, -, -⟩ := holds_plug.mp table.encodes.holds
  have leftHere : t.getLeftChild a.entry = link l := by rw [getLeftChild_natCast, here]; rfl
  have rightHere : t.getRightChild a.entry = link r := by rw [getRightChild_natCast, here]; rfl
  rw [remove_eq, leftHere, rightHere]
  by_cases emptyL : l = .nil
  · subst emptyL
    obtain ⟨t', T, run, table', labels, hdr⟩ := unlink_spec (s := .right) (C := r) (c := red) table
    refine ⟨t', T, ?_, table', ?_, hdr⟩
    · rw [if_neg (by simp [link]), run]
    · rw [labels]
      simp [toList]
  · by_cases emptyR : r = .nil
    · subst emptyR
      obtain ⟨t', T, run, table', labels, hdr⟩ := unlink_spec (s := .left) (C := l) (c := red) table
      refine ⟨t', T, ?_, table', ?_, hdr⟩
      · rw [if_neg (by simp [link]), run]
      · rw [labels]
        simp [toList]
    · obtain ⟨inner, c, m, mr, rfl, before, successor⟩ := getSuccessor_spec table emptyR
      have whole : ∀ b : TreeCell α, plug ctx (.node l red b (plug inner (.node .nil c m mr))) =
          plug (inner ++ ⟨.right, red, b, l⟩ :: ctx) (join .right mr c m .nil) := fun b => by
        rw [plug_append]
        rfl
      -- the node takes over the data of its successor, which is unlinked in its place
      have holds := table.encodes.holds
      rw [whole] at holds
      obtain ⟨⟨there, notHole⟩, -, -⟩ := holds_join.mp (holds_plug.mp holds).2
      have ne : m.entry ≠ a.entry := by
        have distinct := table.encodes.distinct
        rw [whole] at distinct
        obtain ⟨-, -, apart⟩ := nodup_plug.mp distinct
        intro same
        refine apart m.entry (mem_entriesOf_join.mpr (.inl rfl)) ?_
        rw [same, ctxEntries, List.mem_map]
        refine ⟨a, (labels_perm _).mem_iff.mp (List.mem_append_left _ ?_), rfl⟩
        rw [labelsBefore_append]
        simp [labelsBefore]
      have copied : Table (t.copyData a.entry m.entry)
          (plug ctx (.node l red ⟨a.entry, m.key, m.value⟩ (plug inner (.node .nil c m mr)))) := by
        have cells := cells_copyData t ne
        refine relabel_table table rfl notHole ⟨by rw [hdr_copyData], fun e he => ?_⟩
          (by rw [hdr_copyData]) ?_
        · rw [cells, Function.update_of_ne (by simpa using he)]
        · rw [cells, Function.update_self, here, there, key_nodeRec, value_nodeRec]
          rfl
      rw [whole] at copied
      obtain ⟨t', T, run, table', labels, hdr⟩ := unlink_spec copied
      refine ⟨t', T, ?_, table', ?_, ?_⟩
      · have linked : ∀ {T : ColorTree (TreeCell α)}, T ≠ .nil → (link T).isHole = false :=
          fun h => Bool.eq_false_iff.mpr fun hole => h (isHole_link_eq_true.mp hole)
        rw [if_pos ⟨linked emptyL, linked emptyR⟩, successor]
        exact run
      · rw [labels, labelsBefore_append, labelsAfter_append, before, toList_plug, before]
        simp [labelsBefore, labelsAfter, toList, TreeCell.data]
      · rw [hdr, hdr_copyData]

/-! ## `Shrink` -/

/-- `Shrink` makes a new table. -/
def Shrinks (t : TaggedTree d α) : Prop :=
  t.hdr.elements < (t.hdr.capacity + 1) / 4 ∧ 15 ≤ (t.hdr.capacity - 1) / 2

instance (t : TaggedTree d α) : Decidable (Shrinks t) := inferInstanceAs (Decidable (_ ∧ _))

theorem shrink_eq (t : TaggedTree d α) :
    t.shrink =
      if Shrinks t then (t.adjustTaggedTree (5 + (t.hdr.capacity - 1) / 2 * d.entrySize)).map
        (·.setCapacity ((t.hdr.capacity - 1) / 2))
      else some t := by
  unfold shrink
  by_cases enough : (t.capacity + 1) / 4 ≤ t.numberOfElements
  · have large : ¬ Shrinks t := fun h => Int.not_le.mpr h.1 enough
    simp only [if_pos enough, if_neg large]
  · by_cases tiny : (t.capacity - 1) / 2 < minShrinkCapacity
    · have large : ¬ Shrinks t := fun h => Int.not_le.mpr tiny h.2
      simp only [if_neg enough, if_pos tiny, if_neg large]
    · have small : Shrinks t := ⟨Int.not_le.mp enough, Int.not_lt.mp tiny⟩
      simp only [if_neg enough, if_neg tiny, if_pos small]
      rfl

/-- `Shrink` of a table with nodes and deleted entries. -/
theorem shrink_table {t : TaggedTree d α} {T : ColorTree (TreeCell α)} (table : Table t T)
    (deleted : t.hdr.deleted ≠ 0) (nonempty : Shrinks t → T ≠ .nil) :
    ∃ t' T', t.shrink = some t' ∧ Table t' T' ∧ T'.map TreeCell.data = T.map TreeCell.data ∧
      t'.hdr.compare = (if Shrinks t then .hole else t.hdr.compare) ∧
      (¬ Shrinks t → t' = t) := by
  rw [shrink_eq]
  by_cases small : Shrinks t
  · have size := table.storage.elements
    rw [entriesOf, List.length_map] at size
    obtain ⟨low, high⟩ := small
    obtain ⟨newTree, T', run, table', same, compare, -, -⟩ :=
      compact_table ((t.hdr.capacity - 1) / 2) table (nonempty ⟨low, high⟩) deleted
        (by omega) (by omega)
    refine ⟨newTree.setCapacity ((t.hdr.capacity - 1) / 2), T', ?_, table', same, ?_, fun h => ?_⟩
    · rw [if_pos ⟨low, high⟩, run]
      rfl
    · rw [if_pos ⟨low, high⟩, hdr_setCapacity, compare]
    · exact absurd ⟨low, high⟩ h
  · exact ⟨t, T, if_neg small, table, rfl, by rw [if_neg small], fun _ => rfl⟩

/-- The table that `Shrink` makes of an empty tree: entry 0 is the root, and it has no key. -/
structure Hollow (t : TaggedTree d α) : Prop where
  storage : Storage t []
  root : t.hdr.root = 0
  key : (t.cells 0).key = .hole

theorem adjustTaggedTree_empty {t : TaggedTree .map α} (len : Int) (root : t.hdr.root = -1)
    (deleted : t.hdr.deleted ≠ 0) (capacity : 7 ≤ t.hdr.capacity) :
    t.adjustTaggedTree len = some (t.copyEntry (-1) (adjustStart t len) 0) := by
  rw [adjustTaggedTree_eq t len deleted, getRootEntries_eq, root]
  obtain ⟨fuel, enough⟩ : ∃ k, t.fuel = k + 2 := ⟨t.fuel - 2, by
    simp only [TaggedTree.fuel, capacity_eq]; omega⟩
  have first : adjustStep t (adjustStart t len, [-1], 0, 1) =
      .inl (t.copyEntry (-1) (adjustStart t len) 0, [], 0 + 1, 1) := rfl
  rw [enough, iter_inl (fuel + 1) first]
  exact iter_inr fuel rfl

theorem shrink_hollow {t : TaggedTree .map α} (table : Table t .nil) (deleted : t.hdr.deleted ≠ 0)
    (small : Shrinks t) :
    ∃ t', t.shrink = some t' ∧ Hollow t' ∧ t'.hdr.compare = .hole := by
  have size : t.hdr.elements = 0 := table.storage.elements
  let len := 5 + (t.hdr.capacity - 1) / 2 * TreeDerived.map.entrySize
  let t' := (t.copyEntry (-1) (adjustStart t len) 0).setCapacity ((t.hdr.capacity - 1) / 2)
  have writes : t.copyEntry (-1) (adjustStart t len) 0 =
      (((adjustStart t len).setKey (0 : Nat) .hole).setColor (0 : Nat) .black).setValue (0 : Nat)
        (t.getValue (-1)) := rfl
  have hdr : t'.hdr = ⟨0, 0, (t.hdr.capacity - 1) / 2, 0, .hole, len, fun _ => .hole⟩ := by
    simp only [t', hdr_setCapacity, writes, hdr_setValue, hdr_setColor, hdr_setKey, hdr_adjustStart,
      size]
  have cells : ∀ e, t'.cells e = if e = 0 then
      { (blankNode : TreeNode α) with
        value := t.getValue (-1), color := .int 0, parent := .int (-1) } else blankNode := by
    intro e
    simp only [t', cells_setCapacity, writes, cells_setValue, cells_setColor, cells_setKey,
      Function.update_idem, Function.update_self, Function.update_apply, cells_adjustStart]
    by_cases h : e = 0
    · rw [if_pos h, if_pos h]
      rfl
    · simp only [if_neg h]
  refine ⟨t', ?_, ⟨?_, by rw [hdr], by rw [cells, if_pos rfl]; rfl⟩, by rw [hdr]⟩
  · rw [shrink_eq, if_pos small,
      adjustTaggedTree_empty len table.encodes.root deleted table.storage.capacity]
    rfl
  · obtain ⟨-, high⟩ := small
    constructor <;> simp only [hdr, cells]
    · rfl
    · decide
    · simp
    · simp
    · intro e _
      split_ifs <;> exact ⟨rfl, rfl⟩
    · omega
    · rfl
    · intro e he
      rw [if_neg (by omega)]

/-! ## `Delete` -/

/-- The `Shrink` after a `Remove` makes a new table. -/
def ShrinksAfterRemove (t : TaggedTree d α) : Prop :=
  t.hdr.elements - 1 < (t.hdr.capacity + 1) / 4 ∧ 15 ≤ (t.hdr.capacity - 1) / 2

instance (t : TaggedTree d α) : Decidable (ShrinksAfterRemove t) :=
  inferInstanceAs (Decidable (_ ∧ _))

section Delete

variable {t : TaggedTree d α} {ctx : List (RBFrame (TreeCell α))} {l r : ColorTree (TreeCell α)}
  {red : Bool} {a : TreeCell α}

/-- The keys and values left after the removal of `a`. -/
def remaining (ctx : List (RBFrame (TreeCell α))) (l r : ColorTree (TreeCell α)) :
    List (JSTaggedValue α × JSTaggedValue α) :=
  (labelsBefore ctx ++ l.toList).map TreeCell.data ++ (r.toList ++ labelsAfter ctx).map TreeCell.data

/-- `Delete` takes one node out of the table; the last one, if the table is not shrunk then. -/
theorem delete_spec (table : Table t (plug ctx (.node l red a r)))
    (kept : ShrinksAfterRemove t → t.hdr.elements ≠ 1) :
    ∃ t' T, t.delete a.entry = some t' ∧ Table t' T ∧
      T.toList.map TreeCell.data = remaining ctx l r ∧
      t'.hdr.compare = if ShrinksAfterRemove t then .hole else t.hdr.compare := by
  obtain ⟨t1, T1, run, table1, labels, hdr⟩ := remove_spec table
  have shrinks : Shrinks t1 ↔ ShrinksAfterRemove t := by
    rw [Shrinks, hdr, ShrinksAfterRemove]
  have deleted : t1.hdr.deleted ≠ 0 := by
    have := table.storage.deleted
    rw [hdr]
    show t.hdr.deleted + 1 ≠ 0
    omega
  have nonempty : Shrinks t1 → T1 ≠ .nil := by
    rintro small rfl
    have none : t1.hdr.elements = 0 := table1.storage.elements
    rw [hdr] at none
    exact kept (shrinks.mp small) (by simp only at none; omega)
  obtain ⟨t', T', shrunk, table', same, compare, -⟩ := shrink_table table1 deleted nonempty
  refine ⟨t', T', ?_, table', ?_, ?_⟩
  · simp only [delete, run, Option.bind_eq_bind, Option.bind_some, shrunk]
  · rw [← toList_map, same, toList_map, labels]
    rfl
  · rw [compare, hdr]
    exact if_congr shrinks rfl rfl

/-- `Delete` of the last node of a map, with a `Shrink`. -/
theorem delete_hollow {t : TaggedTree .map α} (table : Table t (plug ctx (.node l red a r)))
    (small : ShrinksAfterRemove t) (last : t.hdr.elements = 1) :
    ∃ t', t.delete a.entry = some t' ∧ Hollow t' ∧ t'.hdr.compare = .hole := by
  obtain ⟨t1, T1, run, table1, labels, hdr⟩ := remove_spec table
  have none : t1.hdr.elements = 0 := by
    rw [hdr]
    simp only [last]
    rfl
  have empty : T1 = .nil := by
    by_contra nonempty
    have := length_toList_pos nonempty
    have size := table1.storage.elements
    rw [none, entriesOf, List.length_map] at size
    omega
  subst empty
  have deleted : t1.hdr.deleted ≠ 0 := by
    have := table.storage.deleted
    rw [hdr]
    show t.hdr.deleted + 1 ≠ 0
    omega
  have small1 : Shrinks t1 := by
    rw [Shrinks, hdr]
    exact small
  obtain ⟨t', shrunk, hollow, compare⟩ := shrink_hollow table1 deleted small1
  refine ⟨t', ?_, hollow, compare⟩
  simp only [delete, run, Option.bind_eq_bind, Option.bind_some, shrunk]

end Delete

end TaggedTree

end ArkRuntime
