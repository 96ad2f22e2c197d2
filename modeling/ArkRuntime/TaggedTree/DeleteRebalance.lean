import ArkRuntime.TaggedTree.InsertRebalance

/-!
# `DeleteRebalance`

The loop climbs with a subtree that is one black node short (`CtxBalanced .. (n + 1)` around
`Balanced .. n`). `Remove` starts it at a black leaf that is still linked: the predicate `P` marks
that leaf, which counts as empty. A red brother is first turned into a black one; under a black
brother with black children the problem moves up, else one or two rotations end it.
-/

namespace ArkRuntime

open ColorTree

variable {d : TreeDerived} {α : Type}

namespace TaggedTree

/-- A red brother moves above the parent. -/
def deleteRebalanceRed (s : Side) (t : TaggedTree d α) (index bro : Int) : TaggedTree d α :=
  let t := t.setColor bro .black
  let t := t.setColor (t.getParent index) .red
  rotate s t (t.getParent index)

/-- A brother whose only red child is the inner one. -/
def deleteRebalanceInner (s : Side) (t : TaggedTree d α) (bro : Int) : TaggedTree d α :=
  let t := t.setColor (childAt s t bro) .black
  let t := t.setColor bro .red
  rotate s.opp t bro

/-- A brother whose outer child is red. -/
def deleteRebalanceOuter (s : Side) (t : TaggedTree d α) (index bro : Int) : TaggedTree d α :=
  let t := t.setColor bro (t.getColor (t.getParent index))
  let t := t.setColor (t.getParent index) .black
  let t := t.setColor (childAt s.opp t bro) .black
  rotate s t (t.getParent index)

/-- The body of the loop from where the brother is black. -/
def deleteRebalanceBlack (s : Side) (t : TaggedTree d α) (index bro : Int) : TaggedTree d α × Int :=
  if t.getColor (childAt s t bro) = .black ∧ t.getColor (childAt s.opp t bro) = .black then
    let t := t.setColor bro .red
    (t, t.getParent index)
  else
    let (t, bro) :=
      if t.getColor (childAt s.opp t bro) = .black then
        let t := deleteRebalanceInner s t bro
        (t, brother s t index)
      else (t, bro)
    let t := deleteRebalanceOuter s t index bro
    (t, t.getRootEntries)

/-- The body of the loop, with the mirror images of the source in one: `s` is the side of the
    node. -/
def deleteRebalanceSide (s : Side) (t : TaggedTree d α) (index : Int) : TaggedTree d α × Int :=
  let bro := brother s t index
  let (t, bro) :=
    if t.getColor bro = .red then
      let t := deleteRebalanceRed s t index bro
      (t, brother s t index)
    else (t, bro)
  deleteRebalanceBlack s t index bro

theorem deleteRebalanceStep_eq (t : TaggedTree d α) (index : Int) :
    deleteRebalanceStep (t, index) =
      if index ≠ t.getRootEntries ∧ t.getColor index = .black then
        .inl (deleteRebalanceSide (if t.isLeft index then .left else .right) t index)
      else .inr (t.setColor index .black) := by
  by_cases again : index ≠ t.getRootEntries ∧ t.getColor index = .black
  · rw [if_pos again]
    by_cases left : t.isLeft index = true
    · simp only [deleteRebalanceStep, if_pos again, if_pos left]
      exact (apply_ite Sum.inl _ _ _).symm
    · simp only [deleteRebalanceStep, if_pos again, if_neg left]
      exact (apply_ite Sum.inl _ _ _).symm
  · simp only [deleteRebalanceStep, if_neg again]

section Cases

variable {t₀ t : TaggedTree d α} {L : List (TreeCell α)} {ctx : List (RBFrame (TreeCell α))}
  {s : Side} {D X Y : ColorTree (TreeCell α)} {c : Bool} {p b : TreeCell α}

theorem deleteRebalanceRed_spec
    (h : Rearranged t₀ L t (plug (⟨s, false, p, join s X true b Y⟩ :: ctx) D)) (nonempty : D ≠ .nil) :
    Rearranged t₀ L (deleteRebalanceRed s t (rootOf D) b.entry)
      (plug (⟨s, true, p, X⟩ :: ⟨s, false, b, Y⟩ :: ctx) D) := by
  have h1 : Rearranged t₀ L (t.setColor b.entry .black)
      (plug (⟨s, false, p, join s X false b Y⟩ :: ctx) D) := by
    rw [plug_swap] at h ⊢
    exact h.setColor _ false
  have h2 : Rearranged t₀ L ((t.setColor b.entry .black).setColor p.entry .red)
      (plug ctx (join s D true p (join s X false b Y))) :=
    Rearranged.setColor ctx h1 true
  have parent1 := getParent_focus h1.encodes nonempty
  have parent2 := getParent_focus (f := ⟨s, true, p, join s X false b Y⟩) h2.encodes nonempty
  simp only [deleteRebalanceRed, parent1, parent2]
  exact h2.rotate _

/-- Under a black brother with black children, the brother becomes red. -/
theorem deleteRebalanceBlack_recolor
    (h : Rearranged t₀ L t (plug (⟨s, c, p, join s X false b Y⟩ :: ctx) D)) (nonempty : D ≠ .nil)
    (blackX : X.isRed = false) (blackY : Y.isRed = false) :
    ∃ t', deleteRebalanceBlack s t (rootOf D) b.entry = (t', (p.entry : Int)) ∧
      Rearranged t₀ L t' (plug ctx (join s D c p (join s X true b Y))) := by
  obtain ⟨-, hbro, -⟩ := h.encodes.frame
  obtain ⟨childX, childY⟩ := childAt_join hbro
  obtain ⟨-, hX, hY⟩ := holds_join.mp hbro
  have h1 : Rearranged t₀ L (t.setColor b.entry .red)
      (plug (⟨s, c, p, join s X true b Y⟩ :: ctx) D) := by
    rw [plug_swap] at h ⊢
    exact h.setColor _ true
  have parent1 := getParent_focus h1.encodes nonempty
  refine ⟨_, ?_, h1⟩
  simp only [deleteRebalanceBlack, childX, childY, getColor_rootOf hX, getColor_rootOf hY, blackX,
    blackY, TreeColor.ofRed, and_self, if_true, parent1]

theorem deleteRebalanceInner_spec {X1 X2 : ColorTree (TreeCell α)} {x : TreeCell α}
    (h : Rearranged t₀ L t
      (plug (⟨s, c, p, join s (join s X1 true x X2) false b Y⟩ :: ctx) D)) :
    Rearranged t₀ L (deleteRebalanceInner s t b.entry)
      (plug (⟨s, c, p, join s X1 false x (join s X2 true b Y)⟩ :: ctx) D) := by
  obtain ⟨-, hbro, -⟩ := h.encodes.frame
  have child := (childAt_join hbro).1
  rw [rootOf_join] at child
  rw [plug_swap] at h ⊢
  have h1 : Rearranged t₀ L (t.setColor x.entry .black)
      (plug (⟨s, false, b, Y⟩ :: ⟨s.opp, c, p, D⟩ :: ctx) (join s X1 false x X2)) :=
    Rearranged.setColor (⟨s, false, b, Y⟩ :: ⟨s.opp, c, p, D⟩ :: ctx) h false
  have h2 : Rearranged t₀ L ((t.setColor x.entry .black).setColor b.entry .red)
      (plug (⟨s.opp, c, p, D⟩ :: ctx) (join s (join s X1 false x X2) true b Y)) :=
    Rearranged.setColor (⟨s.opp, c, p, D⟩ :: ctx) h1 true
  rw [← join_opp s Y, ← join_opp s X2] at h2
  have h3 := h2.rotate _
  rw [join_opp, join_opp] at h3
  simp only [deleteRebalanceInner, child]
  exact h3

theorem deleteRebalanceOuter_spec
    (h : Rearranged t₀ L t (plug (⟨s, c, p, join s X false b Y⟩ :: ctx) D)) (nonempty : D ≠ .nil)
    (redY : Y.isRed = true) :
    Rearranged t₀ L (deleteRebalanceOuter s t (rootOf D) b.entry)
      (plug ctx (join s (join s D false p X) c b Y.blacken)) := by
  obtain ⟨Y1, cy, y, Y2, rfl⟩ := exists_join_of_ne_nil s (ne_nil_of_isRed redY)
  have parent0 := getParent_focus h.encodes nonempty
  have color0 := getColor_parent_focus h.encodes nonempty
  have h1 : Rearranged t₀ L (t.setColor b.entry (.ofRed c))
      (plug (⟨s, c, p, join s X c b (join s Y1 cy y Y2)⟩ :: ctx) D) := by
    rw [plug_swap] at h ⊢
    exact h.setColor _ c
  have h2 : Rearranged t₀ L ((t.setColor b.entry (.ofRed c)).setColor p.entry .black)
      (plug (⟨s, false, p, join s X c b (join s Y1 cy y Y2)⟩ :: ctx) D) :=
    Rearranged.setColor ctx h1 false
  have h3 : Rearranged t₀ L
      (((t.setColor b.entry (.ofRed c)).setColor p.entry .black).setColor y.entry .black)
      (plug (⟨s, false, p, join s X c b (join s Y1 false y Y2)⟩ :: ctx) D) := by
    rw [plug_swap, ← join_opp] at h2 ⊢
    exact Rearranged.setColor (⟨s.opp, c, b, X⟩ :: ⟨s.opp, false, p, D⟩ :: ctx) h2 false
  have parent1 := getParent_focus h1.encodes nonempty
  have child2 := (childAt_join h2.encodes.frame.2.1).2
  rw [rootOf_join] at child2
  have parent3 := getParent_focus h3.encodes nonempty
  simp only [deleteRebalanceOuter, color0, parent1, child2, parent3, blacken_join]
  exact Rearranged.rotate ctx h3

/-- Under a black brother with a red child, rotations end the loop. -/
theorem deleteRebalanceBlack_rotate
    (h : Rearranged t₀ L t (plug (⟨s, c, p, join s X false b Y⟩ :: ctx) D)) (nonempty : D ≠ .nil)
    (redXY : X.isRed = true ∨ Y.isRed = true) :
    ∃ t' A e B, deleteRebalanceBlack s t (rootOf D) b.entry = (t', t'.getRootEntries) ∧
      Rearranged t₀ L t' (plug ctx (join s (join s D false p A) c e B)) ∧
      (Y.isRed = true ∧ A = X ∧ e = b ∧ B = Y.blacken ∨
        Y.isRed = false ∧ ∃ x X2, X = join s A true x X2 ∧ e = x ∧ B = join s X2 false b Y) := by
  obtain ⟨-, hbro, -⟩ := h.encodes.frame
  obtain ⟨childX, childY⟩ := childAt_join hbro
  obtain ⟨-, hX, hY⟩ := holds_join.mp hbro
  have notBoth : ¬ (t.getColor (childAt s t b.entry) = .black ∧
      t.getColor (childAt s.opp t b.entry) = .black) := by
    rw [childX, childY, getColor_rootOf hX, getColor_rootOf hY]
    rcases redXY with red | red <;> simp [red]
  rw [deleteRebalanceBlack, if_neg notBoth, childY, getColor_rootOf hY]
  cases colorY : Y.isRed with
  | true =>
    refine ⟨_, X, b, Y.blacken, ?_, deleteRebalanceOuter_spec h nonempty colorY, .inl ⟨rfl, rfl, rfl, rfl⟩⟩
    simp [TreeColor.ofRed]
  | false =>
    have redX : X.isRed = true := by simpa [colorY] using redXY
    obtain ⟨X1, cx, x, X2, rfl⟩ := exists_join_of_ne_nil s (ne_nil_of_isRed redX)
    rw [isRed_join] at redX
    subst redX
    have h1 := deleteRebalanceInner_spec h
    have bro := brother_focus h1.encodes nonempty
    rw [rootOf_join] at bro
    have h2 := deleteRebalanceOuter_spec h1 nonempty (isRed_join _ _ _ _ _)
    rw [blacken_join] at h2
    refine ⟨_, X1, x, join s X2 false b Y, ?_, h2, .inr ⟨rfl, x, X2, rfl, rfl, rfl⟩⟩
    simp only [TreeColor.ofRed, if_true, bro]

end Cases

/-! ## The loop -/

/-- The loop stands at a subtree that is one black node short, at a red node that makes up for it
    when blackened, or at the root of a balanced tree. -/
inductive DeleteInv (P : TreeCell α → Prop) (t₀ : TaggedTree d α) (L : List (TreeCell α)) :
    Nat → TaggedTree d α × Int → Prop
  | climb {t : TaggedTree d α} {ctx : List (RBFrame (TreeCell α))} {D : ColorTree (TreeCell α)}
      {n : Nat} : Rearranged t₀ L t (plug ctx D) → D ≠ .nil → Balanced P false n D →
      CtxBalanced P false (n + 1) ctx → DeleteInv P t₀ L (ctx.length + 1) (t, rootOf D)
  | red {t : TaggedTree d α} {ctx : List (RBFrame (TreeCell α))} {D : ColorTree (TreeCell α)}
      {n : Nat} : Rearranged t₀ L t (plug ctx D) → D.isRed = true → Balanced P false n D.blacken →
      CtxBalanced P false n ctx → DeleteInv P t₀ L 0 (t, rootOf D)
  | leave {t : TaggedTree d α} {T : ColorTree (TreeCell α)} {m : Nat} : Rearranged t₀ L t T →
      Balanced P false m T → DeleteInv P t₀ L 0 (t, rootOf T)

/-- What the loop leaves behind. -/
def DeletePost (P : TreeCell α → Prop) (t₀ : TaggedTree d α) (L : List (TreeCell α))
    (t : TaggedTree d α) : Prop :=
  ∃ T m, Rearranged t₀ L t T ∧ Balanced P false m T

section Loop

variable {P : TreeCell α → Prop} {t₀ t : TaggedTree d α} {L : List (TreeCell α)}
  {ctx : List (RBFrame (TreeCell α))} {D : ColorTree (TreeCell α)} {s : Side} {c : Bool} {n : Nat}

/-- One round under a black brother; below a red parent the loop is then about to leave. -/
theorem deleteRebalanceBlack_round {B : ColorTree (TreeCell α)} {p : TreeCell α}
    (h : Rearranged t₀ L t (plug (⟨s, c, p, B⟩ :: ctx) D)) (nonempty : D ≠ .nil)
    (hD : Balanced P false n D) (hB : Balanced P false (n + 1) B) (real : ¬ P p)
    (hctx : CtxBalanced P c (n + 1 + bif c then 0 else 1) ctx) :
    ∃ m, m ≤ (bif c then 0 else ctx.length + 1) ∧
      DeleteInv P t₀ L m (deleteRebalanceBlack s t (rootOf D) (rootOf B)) := by
  obtain ⟨X, cB, b, Y, rfl⟩ := exists_join_of_ne_nil s hB.ne_nil
  have black := hB.isRed_eq
  rw [isRed_join] at black
  subst black
  obtain ⟨-, realB, cx, cy, hX, hY⟩ := hB.of_join_black
  rw [rootOf_join]
  by_cases redXY : X.isRed = true ∨ Y.isRed = true
  · obtain ⟨t', A, e, B', run, h', shape⟩ := deleteRebalanceBlack_rotate h nonempty redXY
    have parts : (∃ cA, Balanced P cA n A) ∧ ¬ P e ∧ Balanced P false (n + 1) B' := by
      rcases shape with ⟨redY, rfl, rfl, rfl⟩ | ⟨blackY, x, X2, rfl, rfl, rfl⟩
      · have : cy = true := by rw [← hY.isRed_eq, redY]
        subst this
        exact ⟨⟨cx, hX⟩, realB, hY.blacken⟩
      · obtain ⟨-, realX, hX1, hX2⟩ := hX.of_join_red
        exact ⟨⟨false, hX1⟩, realX, .join_black realB hX2 hY⟩
    obtain ⟨⟨cA, hA⟩, realE, hB'⟩ := parts
    have low : Balanced P false (n + 1) (join s D false p A) := .join_black real hD hA
    have whole : ∃ m, Balanced P false m (plug ctx (join s (join s D false p A) c e B')) := by
      cases c with
      | true => exact hctx.plug (.join_red realE low hB')
      | false => exact hctx.plug (.join_black realE low hB')
    obtain ⟨m, balanced⟩ := whole
    refine ⟨0, Nat.zero_le _, ?_⟩
    rw [run, getRootEntries_eq, h'.encodes.root]
    exact .leave h' balanced
  · simp only [not_or, Bool.not_eq_true] at redXY
    obtain ⟨t', run, h'⟩ := deleteRebalanceBlack_recolor h nonempty redXY.1 redXY.2
    have hX' : Balanced P false n X := by rwa [← hX.isRed_eq, redXY.1] at hX
    have hY' : Balanced P false n Y := by rwa [← hY.isRed_eq, redXY.2] at hY
    have hB' : Balanced P true n (join s X true b Y) := .join_red realB hX' hY'
    have up : Balanced P false (n + 1) (join s D false p (join s X true b Y)) :=
      .join_black real hD hB'
    rw [run, ← rootOf_join s D (join s X true b Y) c p]
    cases c with
    | true =>
      exact ⟨0, le_rfl, .red h' (isRed_join _ _ _ _ _) (by rwa [blacken_join]) hctx.weaken⟩
    | false => exact ⟨ctx.length + 1, le_rfl, .climb h' (join_ne_nil _ _ _ _ _) up hctx⟩

/-- The side of the node, as the code finds it. -/
theorem side_focus {f : RBFrame (TreeCell α)} (enc : Encodes t (plug (f :: ctx) D))
    (nonempty : D ≠ .nil) : (if t.isLeft (rootOf D) then Side.left else Side.right) = f.side := by
  rw [isLeft_eq, isSide_focus enc nonempty .left]
  cases f.side <;> rfl

/-- One round at a black node that is not the root. -/
theorem deleteRebalanceStep_climb {f : RBFrame (TreeCell α)}
    (h : Rearranged t₀ L t (plug (f :: ctx) D)) (nonempty : D ≠ .nil) (hD : Balanced P false n D)
    (hctx : CtxBalanced P false (n + 1) (f :: ctx)) :
    ∃ st' m, deleteRebalanceStep (t, rootOf D) = .inl st' ∧ m < ctx.length + 2 ∧
      DeleteInv P t₀ L m st' := by
  obtain ⟨s, c, p, B⟩ := f
  have notRoot : rootOf D ≠ t.getRootEntries := by
    have := isValidIndex_focus h.encodes nonempty
    simp only [isValidIndex, decide_eq_true_eq] at this
    exact this.1
  have black : t.getColor (rootOf D) = .black := by
    rw [getColor_rootOf h.encodes.frame.2.2, hD.isRed_eq]; rfl
  have step : deleteRebalanceStep (t, rootOf D) = .inl (deleteRebalanceSide s t (rootOf D)) := by
    rw [deleteRebalanceStep_eq, if_pos ⟨notRoot, black⟩, side_focus h.encodes nonempty]
  have bro := brother_focus h.encodes nonempty
  have broColor := getColor_rootOf h.encodes.frame.2.1
  simp only at bro broColor
  -- with a black brother the first part of the body does nothing
  have skip : B.isRed = false → deleteRebalanceSide s t (rootOf D) =
      deleteRebalanceBlack s t (rootOf D) (rootOf B) := by
    intro hblack
    simp [deleteRebalanceSide, bro, broColor, hblack]
  rw [step]
  cases hctx with
  | red real hB hctx =>
    obtain ⟨m, small, inv⟩ := deleteRebalanceBlack_round h nonempty hD hB real hctx
    exact ⟨_, m, rfl, by simp only [cond_true] at small; omega, by rwa [skip hB.isRed_eq]⟩
  | @black _ _ cB _ _ _ _ real hB hctx =>
    cases cB with
    | false =>
      obtain ⟨m, small, inv⟩ := deleteRebalanceBlack_round h nonempty hD hB real hctx
      exact ⟨_, m, rfl, by simp only [cond_false] at small; omega, by rwa [skip hB.isRed_eq]⟩
    | true =>
      obtain ⟨X, cX, b, Y, rfl⟩ := exists_join_of_ne_nil s (ne_nil_of_isRed hB.isRed_eq)
      have red := hB.isRed_eq
      rw [isRed_join] at red
      subst red
      obtain ⟨-, realB, hX, hY⟩ := hB.of_join_red
      have h1 := deleteRebalanceRed_spec h nonempty
      have bro1 := brother_focus h1.encodes nonempty
      have outer : CtxBalanced P true (n + 1) (⟨s, false, b, Y⟩ :: ctx) := .black realB hY hctx
      obtain ⟨m, small, inv⟩ := deleteRebalanceBlack_round h1 nonempty hD hX real outer
      have run : deleteRebalanceSide s t (rootOf D) = deleteRebalanceBlack s
          (deleteRebalanceRed s t (rootOf D) b.entry) (rootOf D) (rootOf X) := by
        rw [isRed_join] at broColor
        simp only [rootOf_join] at bro broColor
        simp only [deleteRebalanceSide, bro, broColor, TreeColor.ofRed, if_true, bro1]
      exact ⟨_, m, rfl, by simp only [cond_true] at small; omega, by rwa [run]⟩

theorem deleteRebalanceStep_round (n : Nat) (st : TaggedTree d α × Int)
    (inv : DeleteInv P t₀ L n st) :
    (∃ st' m, deleteRebalanceStep st = .inl st' ∧ m < n ∧ DeleteInv P t₀ L m st') ∨
      (∃ r, deleteRebalanceStep st = .inr r ∧ DeletePost P t₀ L r) := by
  -- at the root of a balanced tree the loop leaves, and blackening it changes nothing
  have atRoot : ∀ (t : TaggedTree d α) T m, Rearranged t₀ L t T → Balanced P false m T →
      ∃ r, deleteRebalanceStep (t, rootOf T) = .inr r ∧ DeletePost P t₀ L r := by
    intro t T m h balanced
    refine ⟨t.setColor t.getRootEntries .black, ?_, T, m, ?_, balanced⟩
    · rw [deleteRebalanceStep_eq, if_neg (by simp [h.encodes.root]), getRootEntries_eq,
        h.encodes.root]
    · have := h.blacken
      rwa [balanced.blacken_eq] at this
  cases inv with
  | leave h balanced => exact .inr (atRoot _ _ _ h balanced)
  | @red t ctx D _ h red hD hctx =>
    obtain ⟨near, c, a, far, rfl⟩ := exists_join_of_ne_nil .left (ne_nil_of_isRed red)
    rw [isRed_join] at red
    subst red
    rw [blacken_join] at hD
    obtain ⟨m, whole⟩ := hctx.plug hD
    refine .inr ⟨t.setColor a.entry .black, ?_, _, m, h.setColor _ false, whole⟩
    have color := getColor_rootOf (holds_plug.mp h.encodes.holds).2
    rw [deleteRebalanceStep_eq, if_neg, rootOf_join]
    rintro ⟨-, black⟩
    rw [color, isRed_join] at black
    exact TreeColor.noConfusion black
  | @climb t ctx D n h nonempty hD hctx =>
    cases ctx with
    | nil => exact .inr (atRoot t D n h hD)
    | cons f ctx => exact .inl (deleteRebalanceStep_climb h nonempty hD hctx)

end Loop

/-- `DeleteRebalance` at a subtree that is one black node short: the tree becomes balanced, with the
    same labels in the same order. -/
theorem deleteRebalance_spec {P : TreeCell α → Prop} {t : TaggedTree d α}
    {ctx : List (RBFrame (TreeCell α))} {D : ColorTree (TreeCell α)} {n : Nat}
    (enc : Encodes t (plug ctx D)) (nonempty : D ≠ .nil) (hD : Balanced P false n D)
    (hctx : CtxBalanced P false (n + 1) ctx)
    (room : ((plug ctx D).toList.length : Int) ≤ t.hdr.capacity) :
    ∃ t' T m, deleteRebalance t (rootOf D) = some t' ∧
      Rearranged t (plug ctx D).toList t' T ∧ Balanced P false m T := by
  have start : Rearranged t (plug ctx D).toList t (plug ctx D) := ⟨enc, .refl _ _, rfl⟩
  have below : ctx.length + 1 < t.fuel := by
    have small := length_ctx_le ctx D
    have one := length_toList_pos nonempty
    simp only [fuel, capacity_eq]
    omega
  obtain ⟨t', run, T, m, h', balanced⟩ :=
    iter_spec deleteRebalanceStep_round t.fuel _ _ (.climb start nonempty hD hctx) below
  exact ⟨t', T, m, run, h', balanced⟩

/-- `DeleteRebalance` at a red node blackens it. -/
theorem deleteRebalance_red {P : TreeCell α → Prop} {t : TaggedTree d α}
    {ctx : List (RBFrame (TreeCell α))} {D : ColorTree (TreeCell α)} {n : Nat}
    (enc : Encodes t (plug ctx D)) (red : D.isRed = true) (hD : Balanced P false n D.blacken)
    (hctx : CtxBalanced P false n ctx) :
    ∃ t' T m, deleteRebalance t (rootOf D) = some t' ∧
      Rearranged t (plug ctx D).toList t' T ∧ Balanced P false m T := by
  have start : Rearranged t (plug ctx D).toList t (plug ctx D) := ⟨enc, .refl _ _, rfl⟩
  obtain ⟨t', run, T, m, h', balanced⟩ :=
    iter_spec deleteRebalanceStep_round t.fuel _ _ (.red start red hD hctx) (by simp [fuel])
  exact ⟨t', T, m, run, h', balanced⟩

end TaggedTree

end ArkRuntime
