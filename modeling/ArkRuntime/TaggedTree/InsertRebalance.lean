import ArkRuntime.TaggedTree.Focus

/-!
# `InsertRebalance`

The loop climbs with a red node whose context would accept a black one (`CtxBalanced .. false`).
Under a red parent, a red uncle moves the problem two levels up; a black uncle ends it with one or
two rotations, after which the parent is black and the loop leaves. The labels of the tree, in
order, never change.
-/

namespace ArkRuntime

open ColorTree

variable {d : TreeDerived} {α : Type}

namespace TaggedTree

/-- The end of the body under a black uncle, for an outer grandchild. -/
def insertRebalanceTurn (s : Side) (t : TaggedTree d α) (index : Int) : TaggedTree d α :=
  let t := t.setColor (t.getParent index) .black
  let t := t.setColor (t.getParent (t.getParent index)) .red
  rotate s.opp t (t.getParent (t.getParent index))

/-- The body of the loop, with the mirror images of the source in one: `s` is the side of the
    parent. -/
def insertRebalanceSide (s : Side) (t : TaggedTree d α) (index : Int) : TaggedTree d α × Int :=
  let bro := brother s t (t.getParent index)
  if t.getColor bro = .red then
    let t := t.setColor (t.getParent index) .black
    let t := t.setColor bro .black
    let t := t.setColor (t.getParent (t.getParent index)) .red
    (t, t.getParent (t.getParent index))
  else
    let (t, index) :=
      if isSide s.opp t index then (rotate s t (t.getParent index), t.getParent index)
      else (t, index)
    (insertRebalanceTurn s t index, index)

theorem insertRebalanceStep_eq (t : TaggedTree d α) (index : Int) :
    insertRebalanceStep (t, index) =
      if t.isValidIndex index ∧ t.getColor (t.getParent index) = .red then
        .inl (insertRebalanceSide (if t.isLeft (t.getParent index) then .left else .right) t index)
      else .inr (t.setColor t.getRootEntries .black) := by
  by_cases valid : t.isValidIndex index = true ∧ t.getColor (t.getParent index) = .red
  · rw [if_pos valid]
    by_cases left : t.isLeft (t.getParent index) = true
    · simp only [insertRebalanceStep, if_pos valid, if_pos left]
      exact (apply_ite Sum.inl _ _ _).symm
    · simp only [insertRebalanceStep, if_pos valid, if_neg left]
      exact (apply_ite Sum.inl _ _ _).symm
  · simp only [insertRebalanceStep, if_neg valid]

/-- Neither a node nor a label counts as absent during an insertion. -/
def NoneAbsent : TreeCell α → Prop := fun _ => False

section Cases

variable {t₀ t : TaggedTree d α} {L : List (TreeCell α)} {ctx : List (RBFrame (TreeCell α))}
  {s : Side} {D S U : ColorTree (TreeCell α)} {p g : TreeCell α}

/-- The colour the code reads for the uncle. -/
theorem uncle_focus {f : RBFrame (TreeCell α)}
    (h : Rearranged t₀ L t (plug (f :: ⟨s, false, g, U⟩ :: ctx) D)) (nonempty : D ≠ .nil) :
    t.getColor (brother s t (t.getParent (rootOf D))) = .ofRed U.isRed := by
  have above : Encodes t (plug (⟨s, false, g, U⟩ :: ctx) (f.fill D)) := h.encodes
  have bro := brother_focus above (join_ne_nil _ _ _ _ _)
  rw [RBFrame.fill, rootOf_join] at bro
  rw [getParent_focus h.encodes nonempty, bro, getColor_rootOf above.frame.2.1]

/-- A red uncle: parent and uncle become black, the grandparent red. -/
theorem insertRebalanceSide_recolor {s' : Side}
    (h : Rearranged t₀ L t (plug (⟨s', true, p, S⟩ :: ⟨s, false, g, U⟩ :: ctx) D))
    (nonempty : D ≠ .nil) (red : U.isRed = true) :
    ∃ t', insertRebalanceSide s t (rootOf D) = (t', (g.entry : Int)) ∧
      Rearranged t₀ L t' (plug ctx (join s (join s' D false p S) true g U.blacken)) := by
  have hp : t.getParent (rootOf D) = p.entry := getParent_focus h.encodes nonempty
  have h0 : Rearranged t₀ L t (plug (⟨s, false, g, U⟩ :: ctx) (join s' D true p S)) := h
  have bro : brother s t p.entry = rootOf U := by
    have := brother_focus h0.encodes (join_ne_nil _ _ _ _ _)
    rwa [rootOf_join] at this
  have broRed : t.getColor (rootOf U) = .red := by
    rw [← bro, ← hp, uncle_focus h nonempty, red]; rfl
  obtain ⟨Un, cu, u, Uf, rfl⟩ := exists_join_of_ne_nil s (ne_nil_of_isRed red)
  have h1 : Rearranged t₀ L (t.setColor p.entry .black)
      (plug (⟨s, false, g, join s Un cu u Uf⟩ :: ctx) (join s' D false p S)) := h0.setColor _ false
  have h2 : Rearranged t₀ L ((t.setColor p.entry .black).setColor u.entry .black)
      (plug (⟨s, false, g, join s Un false u Uf⟩ :: ctx) (join s' D false p S)) := by
    rw [plug_swap] at h1 ⊢
    exact h1.setColor _ false
  have h3 : Rearranged t₀ L
      (((t.setColor p.entry .black).setColor u.entry .black).setColor g.entry .red)
      (plug ctx (join s (join s' D false p S) true g (join s Un false u Uf))) :=
    Rearranged.setColor ctx h2 true
  have grand2 := getGrandparent_focus (f := ⟨s', false, p, S⟩) h2.encodes nonempty
  have grand3 := getGrandparent_focus (f := ⟨s', false, p, S⟩)
    (g := ⟨s, true, g, join s Un false u Uf⟩) h3.encodes nonempty
  rw [rootOf_join] at bro broRed
  rw [blacken_join]
  refine ⟨_, ?_, h3⟩
  simp only [insertRebalanceSide, hp, bro, broRed, if_true, grand2, grand3]

/-- An outer grandchild under a black uncle: the parent moves up. -/
theorem insertRebalanceTurn_outer
    (h : Rearranged t₀ L t (plug (⟨s, true, p, S⟩ :: ⟨s, false, g, U⟩ :: ctx) D))
    (nonempty : D ≠ .nil) :
    Rearranged t₀ L (insertRebalanceTurn s t (rootOf D))
      (plug (⟨s, false, p, join s S true g U⟩ :: ctx) D) := by
  have hp : t.getParent (rootOf D) = p.entry := getParent_focus h.encodes nonempty
  have h1 : Rearranged t₀ L (t.setColor p.entry .black)
      (plug (⟨s, false, g, U⟩ :: ctx) (join s D false p S)) :=
    Rearranged.setColor (⟨s, false, g, U⟩ :: ctx) h false
  have h2 : Rearranged t₀ L ((t.setColor p.entry .black).setColor g.entry .red)
      (plug ctx (join s (join s D false p S) true g U)) :=
    Rearranged.setColor ctx h1 true
  have grand1 := getGrandparent_focus (f := ⟨s, false, p, S⟩) h1.encodes nonempty
  have grand2 := getGrandparent_focus (f := ⟨s, false, p, S⟩) (g := ⟨s, true, g, U⟩)
    h2.encodes nonempty
  have turned := h2
  rw [← join_opp s U, ← join_opp s S] at turned
  have h3 := turned.rotate _
  rw [join_opp, join_opp] at h3
  simp only [insertRebalanceTurn, hp, grand1, grand2]
  exact h3

theorem insertRebalanceSide_outer
    (h : Rearranged t₀ L t (plug (⟨s, true, p, S⟩ :: ⟨s, false, g, U⟩ :: ctx) D))
    (nonempty : D ≠ .nil) (black : U.isRed = false) :
    ∃ t', insertRebalanceSide s t (rootOf D) = (t', rootOf D) ∧
      Rearranged t₀ L t' (plug (⟨s, false, p, join s S true g U⟩ :: ctx) D) := by
  have notInner : isSide s.opp t (rootOf D) = false := by
    rw [isSide_focus h.encodes nonempty]
    cases s <;> rfl
  refine ⟨_, ?_, insertRebalanceTurn_outer h nonempty⟩
  simp only [insertRebalanceSide, uncle_focus h nonempty, black, TreeColor.ofRed, notInner,
    reduceCtorEq, if_false, Bool.false_eq_true]

/-- An inner grandchild under a black uncle is turned into an outer one first. -/
theorem insertRebalanceSide_inner {A B : ColorTree (TreeCell α)} {x : TreeCell α}
    (h : Rearranged t₀ L t
      (plug (⟨s.opp, true, p, S⟩ :: ⟨s, false, g, U⟩ :: ctx) (join s A true x B)))
    (black : U.isRed = false) :
    ∃ t', insertRebalanceSide s t x.entry = (t', (p.entry : Int)) ∧
      Rearranged t₀ L t'
        (plug (⟨s, false, x, join s B true g U⟩ :: ctx) (join s S true p A)) := by
  have nonempty := join_ne_nil s A B true x
  have hp : t.getParent (x.entry : Int) = p.entry := by
    simpa only [rootOf_join] using getParent_focus h.encodes nonempty
  have inner : isSide s.opp t x.entry = true := by
    have := isSide_focus h.encodes nonempty s.opp
    rw [rootOf_join] at this
    rw [this]
    exact decide_eq_true rfl
  have uncle := uncle_focus h nonempty
  rw [rootOf_join, hp] at uncle
  have h1 : Rearranged t₀ L (rotate s t p.entry)
      (plug (⟨s, true, x, B⟩ :: ⟨s, false, g, U⟩ :: ctx) (join s S true p A)) := by
    refine Rearranged.rotate (⟨s, false, g, U⟩ :: ctx) ?_
    rw [← join_opp]
    exact h
  have h2 := insertRebalanceTurn_outer h1 (join_ne_nil _ _ _ _ _)
  rw [rootOf_join] at h2
  refine ⟨_, ?_, h2⟩
  simp only [insertRebalanceSide, uncle, black, TreeColor.ofRed, inner, hp, reduceCtorEq, if_false,
    if_true]

/-- The side of the parent, as the code finds it. -/
theorem parentSide_focus {f g : RBFrame (TreeCell α)} (enc : Encodes t (plug (f :: g :: ctx) D))
    (nonempty : D ≠ .nil) :
    (if t.isLeft (t.getParent (rootOf D)) then Side.left else Side.right) = g.side := by
  have above : Encodes t (plug (g :: ctx) (f.fill D)) := enc
  have left := isSide_focus above (join_ne_nil _ _ _ _ _) .left
  rw [RBFrame.fill, rootOf_join] at left
  rw [isLeft_eq, getParent_focus enc nonempty, left]
  cases g.side <;> rfl

end Cases

/-! ## The loop -/

/-- The loop stands at a red node whose context accepts a black one, or it is about to leave. -/
inductive InsertInv (t₀ : TaggedTree d α) (L : List (TreeCell α)) :
    Nat → TaggedTree d α × Int → Prop
  | climb {t : TaggedTree d α} {ctx : List (RBFrame (TreeCell α))} {D : ColorTree (TreeCell α)}
      {h : Nat} : Rearranged t₀ L t (plug ctx D) → Balanced NoneAbsent true h D →
      CtxBalanced NoneAbsent false h ctx → InsertInv t₀ L (ctx.length + 1) (t, rootOf D)
  | leave {t : TaggedTree d α} {f : RBFrame (TreeCell α)} {ctx : List (RBFrame (TreeCell α))}
      {D : ColorTree (TreeCell α)} {m : Nat} : Rearranged t₀ L t (plug (f :: ctx) D) → D ≠ .nil →
      f.red = false → Balanced NoneAbsent false m (plug (f :: ctx) D) → InsertInv t₀ L 0 (t, rootOf D)

section Loop

variable {t₀ t : TaggedTree d α} {L : List (TreeCell α)} {ctx : List (RBFrame (TreeCell α))}
  {D : ColorTree (TreeCell α)}

/-- What the loop leaves behind. -/
def InsertPost (t₀ : TaggedTree d α) (L : List (TreeCell α)) (t : TaggedTree d α) : Prop :=
  ∃ T m, Rearranged t₀ L t T ∧ Balanced NoneAbsent false m T

theorem insertRebalanceStep_leave {f : RBFrame (TreeCell α)} {m : Nat}
    (h : Rearranged t₀ L t (plug (f :: ctx) D)) (nonempty : D ≠ .nil) (black : f.red = false)
    (balanced : Balanced NoneAbsent false m (plug (f :: ctx) D)) :
    ∃ r, insertRebalanceStep (t, rootOf D) = .inr r ∧ InsertPost t₀ L r := by
  refine ⟨t.setColor t.getRootEntries .black, ?_, plug (f :: ctx) D, m, ?_, balanced⟩
  · rw [insertRebalanceStep_eq, if_neg]
    rw [getColor_parent_focus h.encodes nonempty, black]
    rintro ⟨-, red⟩
    exact TreeColor.noConfusion red
  · have := h.blacken
    rwa [balanced.blacken_eq] at this

/-- One round at a red node below a red parent. -/
theorem insertRebalanceStep_red {s s' : Side} {S U : ColorTree (TreeCell α)} {p g : TreeCell α} {n : Nat}
    {c : Bool} (h : Rearranged t₀ L t (plug (⟨s', true, p, S⟩ :: ⟨s, false, g, U⟩ :: ctx) D))
    (hD : Balanced NoneAbsent true n D) (hS : Balanced NoneAbsent false n S)
    (hU : Balanced NoneAbsent c n U) (hctx : CtxBalanced NoneAbsent false (n + 1) ctx) :
    ∃ t' m, insertRebalanceStep (t, rootOf D) = .inl t' ∧ m < ctx.length + 3 ∧
      InsertInv t₀ L m t' := by
  have nonempty : D ≠ .nil := ne_nil_of_isRed hD.isRed_eq
  have real : ∀ a : TreeCell α, ¬ NoneAbsent a := fun _ => id
  have step : insertRebalanceStep (t, rootOf D) = .inl (insertRebalanceSide s t (rootOf D)) := by
    rw [insertRebalanceStep_eq, if_pos ⟨isValidIndex_focus h.encodes nonempty,
      getColor_parent_focus h.encodes nonempty⟩, parentSide_focus h.encodes nonempty]
  rw [step]
  cases c with
  | true =>
    obtain ⟨t', run, h'⟩ := insertRebalanceSide_recolor h nonempty hU.isRed_eq
    refine ⟨_, ctx.length + 1, rfl, by omega, ?_⟩
    rw [run, ← rootOf_join s (join s' D false p S) U.blacken true g]
    exact .climb h' (.join_red (real g) (.join_black (real p) hD hS) hU.blacken) hctx
  | false =>
    by_cases outer : s' = s
    · subst outer
      obtain ⟨t', run, h'⟩ := insertRebalanceSide_outer h nonempty hU.isRed_eq
      obtain ⟨m, whole⟩ := hctx.plug (Balanced.join_black (s := s') (real p) hD
        (Balanced.join_red (s := s') (real g) hS hU))
      refine ⟨_, 0, rfl, by omega, ?_⟩
      rw [run]
      exact .leave h' nonempty rfl whole
    · have inner := Side.eq_opp_of_ne outer
      subst inner
      obtain ⟨A, red, x, B, rfl⟩ := exists_join_of_ne_nil s nonempty
      have hred := hD.isRed_eq
      rw [isRed_join] at hred
      subst hred
      obtain ⟨-, -, hA, hB⟩ := hD.of_join_red
      obtain ⟨t', run, h'⟩ := insertRebalanceSide_inner h hU.isRed_eq
      obtain ⟨m, whole⟩ := hctx.plug (Balanced.join_black (s := s) (real x)
        (Balanced.join_red (s := s) (real p) hS hA) (Balanced.join_red (s := s) (real g) hB hU))
      refine ⟨_, 0, rfl, by omega, ?_⟩
      rw [rootOf_join, run, ← rootOf_join s S A true p]
      exact .leave h' (join_ne_nil _ _ _ _ _) rfl whole

theorem insertRebalanceStep_round (n : Nat) (st : TaggedTree d α × Int) (inv : InsertInv t₀ L n st) :
    (∃ st' m, insertRebalanceStep st = .inl st' ∧ m < n ∧ InsertInv t₀ L m st') ∨
      (∃ r, insertRebalanceStep st = .inr r ∧ InsertPost t₀ L r) := by
  cases inv with
  | leave h nonempty black balanced =>
    exact .inr (insertRebalanceStep_leave h nonempty black balanced)
  | climb h hD hctx =>
    have nonempty := ne_nil_of_isRed hD.isRed_eq
    cases hctx with
    | top =>
      refine .inr ⟨_, ?_, _, _, h.blacken, hD.blacken⟩
      rw [insertRebalanceStep_eq, if_neg]
      rintro ⟨valid, -⟩
      exact absurd valid (by rw [not_isValidIndex_root (by exact h.encodes)]; decide)
    | black realP hS hctx =>
      obtain ⟨m, whole⟩ := hctx.plug (.join_black realP hD hS)
      exact .inr (insertRebalanceStep_leave h nonempty rfl whole)
    | red _ hS hctx =>
      cases hctx with
      | black _ hU hctx => exact .inl (insertRebalanceStep_red h hD hS hU hctx)

end Loop

/-- `InsertRebalance` at a red node whose context accepts a black one gives a balanced tree with the
    same labels in the same order. -/
theorem insertRebalance_spec {t : TaggedTree d α} {ctx : List (RBFrame (TreeCell α))}
    {D : ColorTree (TreeCell α)} {h : Nat} (enc : Encodes t (plug ctx D))
    (hD : Balanced NoneAbsent true h D) (hctx : CtxBalanced NoneAbsent false h ctx)
    (room : ((plug ctx D).toList.length : Int) ≤ t.hdr.capacity) :
    ∃ t' T m, insertRebalance t (rootOf D) = some t' ∧
      Rearranged t (plug ctx D).toList t' T ∧ Balanced NoneAbsent false m T := by
  have start : Rearranged t (plug ctx D).toList t (plug ctx D) := ⟨enc, .refl _ _, rfl⟩
  have below : ctx.length + 1 < t.fuel := by
    have small := length_ctx_le ctx D
    have one := length_toList_pos (ne_nil_of_isRed hD.isRed_eq)
    simp only [fuel, capacity_eq]
    omega
  obtain ⟨t', run, T, m, h', balanced⟩ :=
    iter_spec insertRebalanceStep_round t.fuel _ _ (.climb start hD hctx) below
  exact ⟨t', T, m, run, h', balanced⟩

end TaggedTree

end ArkRuntime
