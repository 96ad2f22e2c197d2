import Mathlib.Data.List.Basic

/-!
# Red-black trees with a focus

Binary trees with a colour and a label at every node, seen either as a whole or as a subtree in a
context (`plug`). Algorithms that climb from a node to the root by parent links move such a focus;
the balance of the whole is then the balance of the subtree (`Balanced`) and of the context
(`CtxBalanced`), and each rebalancing case is a lemma about the two.

`Side` makes one statement of the two mirror images of each case. The predicate `P` marks a node
that counts as absent: rebalancing before a black leaf is unlinked treats that leaf as an empty
tree, although the links still lead to it.
-/

namespace ArkRuntime

inductive Side where
  | left
  | right
  deriving DecidableEq, Repr

def Side.opp : Side → Side
  | left => right
  | right => left

@[simp] theorem Side.opp_opp (s : Side) : s.opp.opp = s := by cases s <;> rfl

theorem Side.eq_opp_of_ne {s s' : Side} (h : s' ≠ s) : s' = s.opp := by
  cases s <;> cases s' <;> first | rfl | exact absurd rfl h

inductive ColorTree (β : Type) where
  | nil
  | node (l : ColorTree β) (red : Bool) (a : β) (r : ColorTree β)

/-- A node of a context: the focus is its child at `side`, `sibling` the other child. -/
structure RBFrame (β : Type) where
  side : Side
  red : Bool
  a : β
  sibling : ColorTree β

namespace ColorTree

variable {β : Type}

/-- The labels in order. -/
def toList : ColorTree β → List β
  | nil => []
  | node l _ a r => l.toList ++ a :: r.toList

def isRed : ColorTree β → Bool
  | nil => false
  | node _ red _ _ => red

def blacken : ColorTree β → ColorTree β
  | nil => nil
  | node l _ a r => node l false a r

/-- The node with children `near` at side `s` and `far` at the other. -/
def join (s : Side) (near : ColorTree β) (red : Bool) (a : β) (far : ColorTree β) : ColorTree β :=
  match s with
  | .left => node near red a far
  | .right => node far red a near

@[simp] theorem join_left (near far : ColorTree β) (red : Bool) (a : β) :
    join .left near red a far = node near red a far := rfl

@[simp] theorem join_right (near far : ColorTree β) (red : Bool) (a : β) :
    join .right near red a far = node far red a near := rfl

theorem join_opp (s : Side) (near far : ColorTree β) (red : Bool) (a : β) :
    join s.opp near red a far = join s far red a near := by cases s <;> rfl

@[simp] theorem isRed_join (s : Side) (near far : ColorTree β) (red : Bool) (a : β) :
    (join s near red a far).isRed = red := by cases s <;> rfl

@[simp] theorem blacken_join (s : Side) (near far : ColorTree β) (red : Bool) (a : β) :
    (join s near red a far).blacken = join s near false a far := by cases s <;> rfl

theorem exists_join_of_ne_nil (s : Side) : ∀ {t : ColorTree β}, t ≠ nil →
    ∃ near red a far, t = join s near red a far
  | nil, h => absurd rfl h
  | node l red a r, _ => by
      cases s with
      | left => exact ⟨l, red, a, r, rfl⟩
      | right => exact ⟨r, red, a, l, rfl⟩

theorem join_ne_nil (s : Side) (near far : ColorTree β) (red : Bool) (a : β) :
    join s near red a far ≠ nil := by
  cases s <;> simp

theorem ne_nil_of_isRed {t : ColorTree β} (h : t.isRed = true) : t ≠ nil := by
  rintro rfl
  exact Bool.noConfusion h

theorem length_toList_pos {t : ColorTree β} (h : t ≠ nil) : 1 ≤ t.toList.length := by
  cases t with
  | nil => exact absurd rfl h
  | node l red a r => simp only [toList, List.length_append, List.length_cons]; omega

theorem toList_join_congr (s : Side) {near near' far far' : ColorTree β} (red red' : Bool) (a : β)
    (hnear : near'.toList = near.toList) (hfar : far'.toList = far.toList) :
    (join s near' red' a far').toList = (join s near red a far).toList := by
  cases s <;> simp [toList, hnear, hfar]

/-- A rotation keeps the order of the labels. -/
theorem toList_rotate (s : Side) (a b c : ColorTree β) (cx cy cx' cy' : Bool) (x y : β) :
    (join s (join s a cx x b) cy y c).toList = (join s a cx' x (join s b cy' y c)).toList := by
  cases s <;> simp [toList]

@[simp] theorem toList_blacken (t : ColorTree β) : t.blacken.toList = t.toList := by
  cases t <;> rfl

theorem mem_toList_join {s : Side} {near far : ColorTree β} {red : Bool} {a b : β} :
    b ∈ (join s near red a far).toList ↔ b ∈ near.toList ∨ b = a ∨ b ∈ far.toList := by
  cases s <;> simp [toList]; tauto

section Map

variable {γ : Type} (f : β → γ)

def map : ColorTree β → ColorTree γ
  | nil => nil
  | node l red a r => node l.map red (f a) r.map

theorem toList_map (t : ColorTree β) : (t.map f).toList = t.toList.map f := by
  induction t with
  | nil => rfl
  | node l red a r ihl ihr => simp [map, toList, ihl, ihr]

end Map

end ColorTree

open ColorTree

namespace RBFrame

variable {β : Type}

def fill (f : RBFrame β) (t : ColorTree β) : ColorTree β := join f.side t f.red f.a f.sibling

end RBFrame

section Context

variable {β : Type}

/-- The whole tree around the focus `t`; the innermost frame comes first. -/
def plug : List (RBFrame β) → ColorTree β → ColorTree β
  | [], t => t
  | f :: ctx, t => plug ctx (f.fill t)

/-- The labels before the focus. -/
def labelsBefore : List (RBFrame β) → List β
  | [] => []
  | f :: ctx =>
      labelsBefore ctx ++ (match f.side with
        | .left => []
        | .right => f.sibling.toList ++ [f.a])

/-- The labels after the focus. -/
def labelsAfter : List (RBFrame β) → List β
  | [] => []
  | f :: ctx =>
      (match f.side with
        | .left => f.a :: f.sibling.toList
        | .right => []) ++ labelsAfter ctx

theorem toList_plug (ctx : List (RBFrame β)) (t : ColorTree β) :
    (plug ctx t).toList = labelsBefore ctx ++ t.toList ++ labelsAfter ctx := by
  induction ctx generalizing t with
  | nil => simp [plug, labelsBefore, labelsAfter]
  | cons f ctx ih =>
    obtain ⟨side, red, a, sibling⟩ := f
    cases side <;> simp [plug, ih, RBFrame.fill, labelsBefore, labelsAfter, toList]

theorem toList_plug_node (ctx : List (RBFrame β)) (l r : ColorTree β) (red : Bool) (a : β) :
    (plug ctx (.node l red a r)).toList =
      (labelsBefore ctx ++ l.toList) ++ a :: (r.toList ++ labelsAfter ctx) := by
  simp [toList_plug, toList]

/-- The labels around the focus. -/
def ctxLabels : List (RBFrame β) → List β
  | [] => []
  | f :: ctx => f.a :: f.sibling.toList ++ ctxLabels ctx

theorem toList_join_perm (s : Side) (near far : ColorTree β) (red : Bool) (a : β) :
    (join s near red a far).toList.Perm (a :: (near.toList ++ far.toList)) := by
  cases s with
  | left => exact List.perm_middle
  | right =>
    simp only [join_right, toList]
    exact List.perm_middle.trans (List.Perm.cons a List.perm_append_comm)

theorem toList_plug_perm (ctx : List (RBFrame β)) (t : ColorTree β) :
    (plug ctx t).toList.Perm (t.toList ++ ctxLabels ctx) := by
  induction ctx generalizing t with
  | nil => simp [plug, ctxLabels]
  | cons f ctx ih =>
    refine (ih (f.fill t)).trans ?_
    have filled := toList_join_perm f.side t f.sibling f.red f.a
    refine (List.Perm.append_right _ filled).trans ?_
    simp only [ctxLabels, List.cons_append, List.append_assoc]
    exact List.perm_middle.symm

theorem labels_perm (ctx : List (RBFrame β)) :
    (labelsBefore ctx ++ labelsAfter ctx).Perm (ctxLabels ctx) := by
  have := toList_plug_perm ctx .nil
  rw [toList_plug] at this
  simpa [toList] using this

theorem plug_append (inner outer : List (RBFrame β)) (t : ColorTree β) :
    plug (inner ++ outer) t = plug outer (plug inner t) := by
  induction inner generalizing t with
  | nil => rfl
  | cons f inner ih => exact ih (f.fill t)

theorem labelsBefore_append (inner outer : List (RBFrame β)) :
    labelsBefore (inner ++ outer) = labelsBefore outer ++ labelsBefore inner := by
  induction inner with
  | nil => simp [labelsBefore]
  | cons f inner ih => simp only [List.cons_append, labelsBefore, ih, List.append_assoc]

theorem labelsAfter_append (inner outer : List (RBFrame β)) :
    labelsAfter (inner ++ outer) = labelsAfter inner ++ labelsAfter outer := by
  induction inner with
  | nil => simp [labelsAfter]
  | cons f inner ih => simp only [List.cons_append, labelsAfter, ih, List.append_assoc]

/-- Every label is the root of some focus. -/
theorem exists_focus {t : ColorTree β} {a : β} (h : a ∈ t.toList) :
    ∃ ctx l red r, t = plug ctx (.node l red a r) := by
  induction t with
  | nil => simp [toList] at h
  | node l red b r ihl ihr =>
    simp only [toList, List.mem_append, List.mem_cons] at h
    rcases h with h | rfl | h
    · obtain ⟨ctx, l', red', r', rfl⟩ := ihl h
      exact ⟨ctx ++ [⟨.left, red, b, r⟩], l', red', r', by rw [plug_append]; rfl⟩
    · exact ⟨[], l, red, r, rfl⟩
    · obtain ⟨ctx, l', red', r', rfl⟩ := ihr h
      exact ⟨ctx ++ [⟨.right, red, b, l⟩], l', red', r', by rw [plug_append]; rfl⟩

/-- The focus moves to the sibling. -/
theorem plug_swap (s : Side) (red : Bool) (a : β) (t u : ColorTree β) (ctx : List (RBFrame β)) :
    plug (⟨s, red, a, u⟩ :: ctx) t = plug (⟨s.opp, red, a, t⟩ :: ctx) u := by
  simp only [plug, RBFrame.fill, join_opp]

theorem length_ctx_le (ctx : List (RBFrame β)) (t : ColorTree β) :
    ctx.length + t.toList.length ≤ (plug ctx t).toList.length := by
  induction ctx generalizing t with
  | nil => simp [plug]
  | cons f ctx ih =>
    have h := ih (f.fill t)
    have grow : t.toList.length + 1 ≤ (f.fill t).toList.length := by
      obtain ⟨side, red, a, sibling⟩ := f
      cases side <;> simp [RBFrame.fill, toList]
    simp only [plug, List.length_cons]
    omega

end Context

/-! ## Balance -/

section Balance

variable {β : Type} {P : β → Prop}

/-- `Balanced P c n t`: the root of `t` is red iff `c`, no red node has a red child, and every path
    to an empty tree has `n` black nodes. A black leaf marked by `P` counts as empty. -/
inductive Balanced (P : β → Prop) : Bool → Nat → ColorTree β → Prop
  | nil : Balanced P false 0 .nil
  | absent {a : β} : P a → Balanced P false 0 (.node .nil false a .nil)
  | red {n : Nat} {l r : ColorTree β} {a : β} : ¬ P a → Balanced P false n l → Balanced P false n r →
      Balanced P true n (.node l true a r)
  | black {n : Nat} {c₁ c₂ : Bool} {l r : ColorTree β} {a : β} : ¬ P a → Balanced P c₁ n l →
      Balanced P c₂ n r → Balanced P false (n + 1) (.node l false a r)

/-- `CtxBalanced P c n ctx`: the whole is balanced, with a black root, when the focus is balanced
    with black height `n` and a root that is red iff `c`. -/
inductive CtxBalanced (P : β → Prop) : Bool → Nat → List (RBFrame β) → Prop
  | top {n : Nat} : CtxBalanced P false n []
  | red {n : Nat} {s : Side} {a : β} {t : ColorTree β} {ctx : List (RBFrame β)} : ¬ P a →
      Balanced P false n t → CtxBalanced P true n ctx → CtxBalanced P false n (⟨s, true, a, t⟩ :: ctx)
  | black {n : Nat} {c c' : Bool} {s : Side} {a : β} {t : ColorTree β} {ctx : List (RBFrame β)} : ¬ P a →
      Balanced P c' n t → CtxBalanced P false (n + 1) ctx →
      CtxBalanced P c n (⟨s, false, a, t⟩ :: ctx)

theorem Balanced.isRed_eq {c : Bool} {n : Nat} {t : ColorTree β} (h : Balanced P c n t) :
    t.isRed = c := by
  cases h <;> rfl

variable {s : Side} {near far : ColorTree β} {ctx : List (RBFrame β)}

theorem Balanced.join_red {n : Nat} {a : β} (real : ¬ P a) (hnear : Balanced P false n near)
    (hfar : Balanced P false n far) : Balanced P true n (join s near true a far) := by
  cases s with
  | left => exact .red real hnear hfar
  | right => exact .red real hfar hnear

theorem Balanced.join_black {n : Nat} {c₁ c₂ : Bool} {a : β} (real : ¬ P a) (hnear : Balanced P c₁ n near)
    (hfar : Balanced P c₂ n far) : Balanced P false (n + 1) (join s near false a far) := by
  cases s with
  | left => exact .black real hnear hfar
  | right => exact .black real hfar hnear

theorem Balanced.of_join_red {c : Bool} {n : Nat} {a : β} (h : Balanced P c n (join s near true a far)) :
    c = true ∧ ¬ P a ∧ Balanced P false n near ∧ Balanced P false n far := by
  cases s <;> cases h with
  | red real hl hr => exact ⟨rfl, real, by assumption, by assumption⟩

/-- A balanced tree with a black node that does not count as absent. -/
theorem Balanced.of_join_black {c : Bool} {n : Nat} {a : β}
    (h : Balanced P c (n + 1) (join s near false a far)) :
    c = false ∧ ¬ P a ∧ ∃ c₁ c₂, Balanced P c₁ n near ∧ Balanced P c₂ n far := by
  cases s <;> cases h with
  | black real hl hr => exact ⟨rfl, real, _, _, by assumption, by assumption⟩

theorem Balanced.ne_nil {c : Bool} {n : Nat} {t : ColorTree β} (h : Balanced P c (n + 1) t) :
    t ≠ .nil := by
  intro empty
  subst empty
  cases h

/-- A red node may be blackened. -/
theorem Balanced.blacken {n : Nat} {t : ColorTree β} (h : Balanced P true n t) :
    Balanced P false (n + 1) t.blacken := by
  cases h with
  | red real hl hr => exact .black real hl hr

theorem Balanced.blacken_eq {n : Nat} {t : ColorTree β} (h : Balanced P false n t) :
    t.blacken = t := by
  cases h <;> rfl

theorem CtxBalanced.weaken {n : Nat} (h : CtxBalanced P true n ctx) : CtxBalanced P false n ctx := by
  cases h with
  | black real hs hctx => exact .black real hs hctx

theorem CtxBalanced.plug {c : Bool} {n : Nat} (hctx : CtxBalanced P c n ctx) :
    ∀ {t : ColorTree β}, Balanced P c n t → ∃ m, Balanced P false m (plug ctx t) := by
  induction hctx with
  | top => intro t ht; exact ⟨_, ht⟩
  | red real hs _ ih => intro t ht; exact ih (.join_red real ht hs)
  | black real hs _ ih => intro t ht; exact ih (.join_black real ht hs)

/-- The balance of the whole gives the balance of a focus that is a node or stands in a tree
    without absent nodes. -/
theorem Balanced.of_plug {t : ColorTree β} {m : Nat} (h : Balanced P false m (plug ctx t))
    (real : t ≠ .nil ∨ ∀ f ∈ ctx, ¬ P f.a) : ∃ c n, Balanced P c n t ∧ CtxBalanced P c n ctx := by
  induction ctx generalizing t with
  | nil => exact ⟨false, m, h, .top⟩
  | cons f ctx ih =>
    obtain ⟨side, red, a, sibling⟩ := f
    have filled : RBFrame.fill ⟨side, red, a, sibling⟩ t ≠ .nil := by
      cases side <;> simp [RBFrame.fill]
    obtain ⟨c, n, ht, hctx⟩ := ih h (.inl filled)
    simp only [RBFrame.fill] at ht
    have notAbsent : ∀ b, P b → join side t red a sibling ≠ .node .nil false b .nil := by
      intro b hb heq
      have marked : a = b ∧ t = .nil := by
        cases side <;> simp only [join_left, join_right, ColorTree.node.injEq] at heq <;> simp [heq]
      rcases real with real | real
      · exact real marked.2
      · exact real _ List.mem_cons_self (marked.1 ▸ hb)
    cases side <;> simp only [join_left, join_right] at ht notAbsent <;> cases ht with
    | absent hb => exact absurd rfl (notAbsent _ hb)
    | red hreal hl hr => exact ⟨_, _, by assumption, .red hreal (by assumption) hctx⟩
    | black hreal hl hr => exact ⟨_, _, by assumption, .black hreal (by assumption) hctx⟩

/-- Marking nodes that do not occur, or no longer marking them, changes nothing. -/
theorem Balanced.mono {Q : β → Prop} {c : Bool} {n : Nat} {t : ColorTree β} (h : Balanced P c n t)
    (hp : ∀ a ∈ t.toList, ¬ P a) (hq : ∀ a ∈ t.toList, ¬ Q a) : Balanced Q c n t := by
  induction h with
  | nil => exact .nil
  | absent ha => exact absurd ha (hp _ (by simp [toList]))
  | red _ _ _ ihl ihr =>
    refine .red (hq _ (by simp [toList])) (ihl ?_ ?_) (ihr ?_ ?_) <;>
      intro a ha <;> first
        | exact hp a (by simp [toList, ha])
        | exact hq a (by simp [toList, ha])
  | black _ _ _ ihl ihr =>
    refine .black (hq _ (by simp [toList])) (ihl ?_ ?_) (ihr ?_ ?_) <;>
      intro a ha <;> first
        | exact hp a (by simp [toList, ha])
        | exact hq a (by simp [toList, ha])

theorem CtxBalanced.mono {Q : β → Prop} {c : Bool} {n : Nat} (h : CtxBalanced P c n ctx)
    (hp : ∀ a ∈ ctxLabels ctx, ¬ P a) (hq : ∀ a ∈ ctxLabels ctx, ¬ Q a) : CtxBalanced Q c n ctx := by
  induction h with
  | top => exact .top
  | red _ hs _ ih =>
    simp only [ctxLabels, List.cons_append, List.mem_cons, List.mem_append] at hp hq
    exact .red (hq _ (.inl rfl)) (hs.mono (fun a ha => hp a (.inr (.inl ha)))
      fun a ha => hq a (.inr (.inl ha))) (ih (fun a ha => hp a (.inr (.inr ha)))
      fun a ha => hq a (.inr (.inr ha)))
  | black _ hs _ ih =>
    simp only [ctxLabels, List.cons_append, List.mem_cons, List.mem_append] at hp hq
    exact .black (hq _ (.inl rfl)) (hs.mono (fun a ha => hp a (.inr (.inl ha)))
      fun a ha => hq a (.inr (.inl ha))) (ih (fun a ha => hp a (.inr (.inr ha)))
      fun a ha => hq a (.inr (.inr ha)))

/-- The leaf that counts as absent, found in a balanced tree. -/
theorem Balanced.exists_absent {m : Nat} {t : ColorTree β} {a : β} (h : Balanced P false m t) (marked : P a)
    (mem : a ∈ t.toList) :
    ∃ ctx, t = plug ctx (.node .nil false a .nil) ∧ CtxBalanced P false 0 ctx := by
  obtain ⟨ctx, l, red, r, rfl⟩ := exists_focus mem
  obtain ⟨c, n, focus, around⟩ := h.of_plug (.inl (by simp))
  cases focus with
  | absent _ => exact ⟨ctx, rfl, around⟩
  | red real _ _ => exact absurd marked real
  | black real _ _ => exact absurd marked real

/-- The balance of a node, where no label counts as absent. -/
theorem balanced_node {c red : Bool} {n : Nat} {l r : ColorTree β} {a : β} (none : ∀ b, ¬ P b) :
    Balanced P c n (.node l red a r) ↔
      (red = true ∧ c = true ∧ Balanced P false n l ∧ Balanced P false n r) ∨
      (red = false ∧ c = false ∧ ∃ m c₁ c₂, n = m + 1 ∧ Balanced P c₁ m l ∧ Balanced P c₂ m r) := by
  constructor
  · intro h
    cases h with
    | absent marked => exact absurd marked (none _)
    | red _ hl hr => exact .inl ⟨rfl, rfl, hl, hr⟩
    | black _ hl hr => exact .inr ⟨rfl, rfl, _, _, _, rfl, hl, hr⟩
  · rintro (⟨rfl, rfl, hl, hr⟩ | ⟨rfl, rfl, m, c₁, c₂, rfl, hl, hr⟩)
    · exact .red (none a) hl hr
    · exact .black (none a) hl hr

/-- The balance of a tree does not depend on its labels, where none counts as absent. -/
theorem balanced_map {γ : Type} {Q : γ → Prop} (f : β → γ) (noneP : ∀ b, ¬ P b) (noneQ : ∀ b, ¬ Q b)
    {c : Bool} {n : Nat} {t : ColorTree β} : Balanced Q c n (t.map f) ↔ Balanced P c n t := by
  induction t generalizing c n with
  | nil =>
    constructor
    · intro h
      cases h
      exact .nil
    · intro h
      cases h
      exact .nil
  | node l red a r ihl ihr =>
    rw [map, balanced_node noneQ, balanced_node noneP]
    simp only [ihl, ihr]

end Balance

end ArkRuntime

/-!
## Left-leaning red-black trees

Red-black trees in which only left children are red: a black node with its red left child is a node
with three children of a 2-3 tree.
-/

namespace ArkRuntime

namespace ColorTree

variable {β : Type} {c : Bool} {n : Nat} {t l r : ColorTree β} {a : β}

/-- `LeftLeaning c n t`: the root of `t` is red iff `c`, both children of a red node and the right
    child of every node are black, and every path to an empty tree has `n` black nodes. -/
inductive LeftLeaning : Bool → Nat → ColorTree β → Prop
  | nil : LeftLeaning false 0 .nil
  | red {n : Nat} {l r : ColorTree β} {a : β} : LeftLeaning false n l → LeftLeaning false n r →
      LeftLeaning true n (.node l true a r)
  | black {n : Nat} {c : Bool} {l r : ColorTree β} {a : β} : LeftLeaning c n l →
      LeftLeaning false n r → LeftLeaning false (n + 1) (.node l false a r)

namespace LeftLeaning

theorem isRed_eq (leaning : LeftLeaning c n t) : t.isRed = c := by
  cases leaning <;> rfl

theorem eq_nil (leaning : LeftLeaning false 0 t) : t = .nil := by
  cases leaning
  rfl

theorem height_eq_zero (leaning : LeftLeaning c n (.nil : ColorTree β)) : c = false ∧ n = 0 := by
  cases leaning
  exact ⟨rfl, rfl⟩

theorem of_red (leaning : LeftLeaning c n (.node l true a r)) :
    c = true ∧ LeftLeaning false n l ∧ LeftLeaning false n r := by
  cases leaning with
  | red left right => exact ⟨rfl, left, right⟩

theorem of_black (leaning : LeftLeaning c n (.node l false a r)) :
    c = false ∧ ∃ m c', n = m + 1 ∧ LeftLeaning c' m l ∧ LeftLeaning false m r := by
  cases leaning with
  | black left right => exact ⟨rfl, _, _, rfl, left, right⟩

/-- A tree with black nodes on its paths is not empty. -/
theorem exists_black (leaning : LeftLeaning false (n + 1) t) :
    ∃ l a r c, t = .node l false a r ∧ LeftLeaning c n l ∧ LeftLeaning false n r := by
  cases leaning with
  | black left right => exact ⟨_, _, _, _, rfl, left, right⟩

theorem exists_red (leaning : LeftLeaning true n t) :
    ∃ l a r, t = .node l true a r ∧ LeftLeaning false n l ∧ LeftLeaning false n r := by
  cases leaning with
  | red left right => exact ⟨_, _, _, rfl, left, right⟩

/-- The children of a node. -/
theorem children {red : Bool} (leaning : LeftLeaning c n (.node l red a r)) :
    ∃ m c', LeftLeaning c' m l ∧ LeftLeaning false m r := by
  cases leaning with
  | red left right => exact ⟨_, _, left, right⟩
  | black left right => exact ⟨_, _, left, right⟩

theorem blacken (leaning : LeftLeaning c n t) : ∃ m, LeftLeaning false m t.blacken := by
  cases leaning with
  | nil => exact ⟨0, .nil⟩
  | red left right => exact ⟨_, .black left right⟩
  | black left right => exact ⟨_, .black left right⟩

end LeftLeaning

end ColorTree

end ArkRuntime
