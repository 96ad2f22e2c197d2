import ArkRuntime.TaggedTree.Rotate

/-!
# Reading around a node

What the code reads from the array at a node of the tree, in terms of the node's context: its
parent, its brother, on which side it hangs, and the colours of its neighbours.
-/

namespace ArkRuntime

open ColorTree

variable {d : TreeDerived} {α : Type}

section Frame

variable {t : TaggedTree d α} {f : RBFrame (TreeCell α)} {ctx : List (RBFrame (TreeCell α))}
  {T : ColorTree (TreeCell α)}

/-- The entry of the node above the focus. -/
theorem Encodes.frame (enc : Encodes t (plug (f :: ctx) T)) :
    t.cells f.a.entry = nodeRec f.a f.red (ctxParent ctx) f.side (link T) (link f.sibling) ∧
      Holds t.cells f.a.entry f.sibling ∧ Holds t.cells f.a.entry T := by
  obtain ⟨⟨⟨here, -⟩, sibling, -⟩, focus⟩ := holds_plug.mp enc.holds
  exact ⟨here, sibling, focus⟩

/-- The focus and its sibling are different entries. -/
theorem Encodes.sibling_ne (enc : Encodes t (plug (f :: ctx) T)) (nonempty : T ≠ .nil) :
    rootOf f.sibling ≠ rootOf T := by
  intro same
  obtain ⟨near, red, a, far, rfl⟩ := exists_join_of_ne_nil .left nonempty
  rw [rootOf_join] at same
  obtain ⟨-, -, apart⟩ := nodup_plug.mp enc.distinct
  refine apart a.entry (mem_entriesOf_join.mpr (.inl rfl)) ?_
  have : a.entry ∈ entriesOf f.sibling := rootOf_mem same.symm
  simp only [ctxEntries, ctxLabels, List.cons_append, List.map_cons, List.map_append,
    List.mem_cons, List.mem_append]
  exact .inr (.inl this)

end Frame

namespace TaggedTree

/-- `IsLeft` and `IsRight` in one. -/
def isSide (s : Side) (t : TaggedTree d α) (entry : Int) : Bool :=
  let child := getChild s t (t.getParent entry)
  if child.isHole then false else child.getInt = entry

/-- `GetLeftBrother` and `GetRightBrother` in one: the child of the parent at the other side. -/
def brother (s : Side) (t : TaggedTree d α) (entry : Int) : Int :=
  childEntry (getChild s.opp t (t.getParent entry))

theorem isLeft_eq (t : TaggedTree d α) (entry : Int) : t.isLeft entry = isSide .left t entry := rfl

/-- `childEntry` of a child slot, at a side. -/
def childAt (s : Side) (t : TaggedTree d α) (entry : Int) : Int := childEntry (getChild s t entry)

section Reading

variable {t : TaggedTree d α}

theorem getColor_rootOf {p : Int} {T : ColorTree (TreeCell α)} (holds : Holds t.cells p T) :
    t.getColor (rootOf T) = .ofRed T.isRed := by
  cases T with
  | nil => rfl
  | node l red a r => simp [rootOf, holds.1.1, isRed]

theorem getParent_rootOf {p : Int} {T : ColorTree (TreeCell α)} (holds : Holds t.cells p T)
    (nonempty : T ≠ .nil) : t.getParent (rootOf T) = p := by
  cases T with
  | nil => exact absurd rfl nonempty
  | node l red a r => simp [rootOf, holds.1.1]

theorem getKey_rootOf {p : Int} {T : ColorTree (TreeCell α)} (holds : Holds t.cells p T)
    (nonempty : T ≠ .nil) : t.getKey (rootOf T) ≠ .hole := by
  cases T with
  | nil => exact absurd rfl nonempty
  | node l red a r => rw [rootOf, getKey_natCast, holds.1.1, key_nodeRec]; exact holds.1.2

theorem childAt_join {p : Int} {s : Side} {near far : ColorTree (TreeCell α)} {red : Bool}
    {a : TreeCell α} (holds : Holds t.cells p (join s near red a far)) :
    childAt s t a.entry = rootOf near ∧ childAt s.opp t a.entry = rootOf far := by
  obtain ⟨⟨here, -⟩, -, -⟩ := holds_join.mp holds
  simp [childAt, here]

variable {f : RBFrame (TreeCell α)} {ctx : List (RBFrame (TreeCell α))} {T : ColorTree (TreeCell α)}

theorem getParent_focus (enc : Encodes t (plug (f :: ctx) T)) (nonempty : T ≠ .nil) :
    t.getParent (rootOf T) = f.a.entry :=
  getParent_rootOf enc.frame.2.2 nonempty

theorem getColor_parent_focus (enc : Encodes t (plug (f :: ctx) T)) (nonempty : T ≠ .nil) :
    t.getColor (t.getParent (rootOf T)) = .ofRed f.red := by
  simp [getParent_focus enc nonempty, enc.frame.1]

theorem getGrandparent_focus {g : RBFrame (TreeCell α)} (enc : Encodes t (plug (f :: g :: ctx) T))
    (nonempty : T ≠ .nil) : t.getParent (t.getParent (rootOf T)) = g.a.entry := by
  have above : Encodes t (plug (g :: ctx) (f.fill T)) := enc
  have h := getParent_focus above (join_ne_nil _ _ _ _ _)
  rw [RBFrame.fill, rootOf_join] at h
  rw [getParent_focus enc nonempty, h]

theorem link_eq_int {T : ColorTree (TreeCell α)} (nonempty : T ≠ .nil) : link T = .int (rootOf T) := by
  cases T with
  | nil => exact absurd rfl nonempty
  | node l red a r => rfl

theorem isSide_focus (enc : Encodes t (plug (f :: ctx) T)) (nonempty : T ≠ .nil) (s : Side) :
    isSide s t (rootOf T) = decide (f.side = s) := by
  simp only [isSide, getParent_focus enc nonempty, getChild_natCast, enc.frame.1]
  by_cases hs : f.side = s
  · subst hs
    simp [link_eq_int nonempty]
  · rw [Side.eq_opp_of_ne (Ne.symm hs), child_opp_nodeRec]
    have ne := enc.sibling_ne nonempty
    cases hsib : f.sibling with
    | nil => cases f.side <;> simp [link, Side.opp]
    | node l red a r =>
      rw [hsib] at ne
      have ne' : (a.entry : Int) ≠ rootOf T := ne
      cases f.side <;> simp [link, Side.opp, ne']

theorem brother_focus (enc : Encodes t (plug (f :: ctx) T)) (nonempty : T ≠ .nil) :
    brother f.side t (rootOf T) = rootOf f.sibling := by
  simp [brother, getParent_focus enc nonempty, enc.frame.1]

/-- Below another node, the focus is not the root and has a key. -/
theorem isValidIndex_focus (enc : Encodes t (plug (f :: ctx) T)) (nonempty : T ≠ .nil) :
    t.isValidIndex (rootOf T) = true := by
  obtain ⟨near, red, a, far, rfl⟩ := exists_join_of_ne_nil .left nonempty
  have key := getKey_rootOf enc.frame.2.2 nonempty
  have notRoot : rootOf (join .left near red a far) ≠ t.hdr.root := by
    intro same
    rw [rootOf_join, enc.root, rootOf_plug_cons f ctx _ .nil] at same
    obtain ⟨-, -, apart⟩ := nodup_plug.mp enc.distinct
    have hin := rootOf_mem same
    rw [mem_entriesOf_plug] at hin
    exact apart a.entry (mem_entriesOf_join.mpr (.inl rfl)) (hin.resolve_left (by simp [entriesOf, toList]))
  exact decide_eq_true ⟨notRoot, JSTaggedValue.isHole_eq_false.mpr key⟩

theorem not_isValidIndex_root (enc : Encodes t T) : t.isValidIndex (rootOf T) = false := by
  simp [isValidIndex, enc.root]

end Reading

/-- `SetColor` of the root with black, at the end of the rebalancing loops. -/
theorem blackenRoot_encodes {t : TaggedTree d α} {T : ColorTree (TreeCell α)} (enc : Encodes t T) :
    Encodes (t.setColor t.getRootEntries .black) T.blacken ∧
      Edits (entriesOf T) t (t.setColor t.getRootEntries .black) := by
  cases T with
  | nil =>
    have same : t.setColor t.getRootEntries .black = t := by
      rw [getRootEntries_eq, enc.root]; rfl
    rw [same]
    exact ⟨enc, .refl _ _⟩
  | node l red a r =>
    obtain ⟨enc', edits⟩ := setColor_encodes (s := .left) [] false enc
    rw [getRootEntries_eq, enc.root]
    exact ⟨enc', (Edits.refl _ t).trans edits fun e he =>
      mem_entriesOf_join (s := .left).mpr (.inl (List.mem_singleton.mp he))⟩

/-! ## Rearranging the nodes -/

/-- The loop has reached array `t` with tree `T`: it started from `t₀`, and `L` are the labels. -/
structure Rearranged (t₀ : TaggedTree d α) (L : List (TreeCell α)) (t : TaggedTree d α)
    (T : ColorTree (TreeCell α)) : Prop where
  encodes : Encodes t T
  edits : Edits (L.map TreeCell.entry) t₀ t
  labels : T.toList = L

section Rearranged

variable {t₀ t : TaggedTree d α} {L : List (TreeCell α)}

theorem Rearranged.setColor (ctx : List (RBFrame (TreeCell α))) {s : Side}
    {near far : ColorTree (TreeCell α)} {red : Bool} {a : TreeCell α}
    (h : Rearranged t₀ L t (plug ctx (join s near red a far))) (red' : Bool) :
    Rearranged t₀ L (t.setColor a.entry (.ofRed red')) (plug ctx (join s near red' a far)) := by
  obtain ⟨enc, edits⟩ := setColor_encodes ctx red' h.encodes
  refine ⟨enc, h.edits.trans edits ?_, ?_⟩
  · intro e he
    rw [List.mem_singleton.mp he, ← h.labels]
    exact mem_entriesOf_plug.mpr (.inl (mem_entriesOf_join.mpr (.inl rfl)))
  · rw [← h.labels, toList_plug, toList_plug, toList_join_congr s _ _ _ rfl rfl]

theorem Rearranged.rotate (ctx : List (RBFrame (TreeCell α))) {s : Side}
    {a b c : ColorTree (TreeCell α)} {cx cy : Bool} {x y : TreeCell α}
    (h : Rearranged t₀ L t (plug ctx (join s a cx x (join s b cy y c)))) :
    Rearranged t₀ L (rotate s t x.entry) (plug ctx (join s (join s a cx x b) cy y c)) := by
  obtain ⟨enc, edits⟩ := rotate_encodes h.encodes
  refine ⟨enc, h.edits.trans edits ?_, ?_⟩
  · intro e he
    rwa [← h.labels]
  · rw [← h.labels, toList_plug, toList_plug, toList_rotate]

theorem Rearranged.blacken {T : ColorTree (TreeCell α)} (h : Rearranged t₀ L t T) :
    Rearranged t₀ L (t.setColor t.getRootEntries .black) T.blacken := by
  obtain ⟨enc, edits⟩ := blackenRoot_encodes h.encodes
  refine ⟨enc, h.edits.trans edits ?_, by rw [toList_blacken, h.labels]⟩
  intro e he
  rwa [← h.labels]

end Rearranged

end TaggedTree

end ArkRuntime
