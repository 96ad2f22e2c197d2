import ArkRuntime.TaggedTree.View
import Mathlib.Data.List.Nodup

/-!
# The tree an array encodes

`Holds h p T` says that the entries `h` encode the tree `T` below parent `p`: each node is an entry
with its key, value and colour, whose parent slot names the node above and whose child slots name
the nodes below. `HoldsCtx` says the same of the nodes around a focus, so that the encoding of
`plug ctx T` is the two together (`holds_plug`). A change of a few fields is followed by the frame
lemmas `Holds.congr`, `Holds.reparent` and `HoldsCtx.relink`.
-/

namespace ArkRuntime

/-- The label of a node: the entry it is kept in, and its data. -/
structure TreeCell (α : Type) where
  entry : Nat
  key : JSTaggedValue α
  value : JSTaggedValue α

def TreeColor.ofRed : Bool → TreeColor
  | true => .red
  | false => .black

@[simp] theorem TreeColor.ofRed_eq_red {b : Bool} : TreeColor.ofRed b = .red ↔ b = true := by
  cases b <;> simp [TreeColor.ofRed]

@[simp] theorem TreeColor.ofRed_eq_black {b : Bool} : TreeColor.ofRed b = .black ↔ b = false := by
  cases b <;> simp [TreeColor.ofRed]

variable {α : Type}

open ColorTree

/-- The child slot that names the root of `T`. -/
def link : ColorTree (TreeCell α) → JSTaggedValue α
  | .nil => .hole
  | .node _ _ a _ => .int a.entry

/-- The entry number of the root of `T`. -/
def rootOf : ColorTree (TreeCell α) → Int
  | .nil => -1
  | .node _ _ a _ => a.entry

/-- The entry number above the focus. -/
def ctxParent : List (RBFrame (TreeCell α)) → Int
  | [] => -1
  | f :: _ => f.a.entry

@[simp] theorem link_join (s : Side) (near far : ColorTree (TreeCell α)) (red : Bool) (a : TreeCell α) :
    link (join s near red a far) = .int a.entry := by cases s <;> rfl

@[simp] theorem rootOf_join (s : Side) (near far : ColorTree (TreeCell α)) (red : Bool)
    (a : TreeCell α) : rootOf (join s near red a far) = a.entry := by cases s <;> rfl

@[simp] theorem childEntry_link (T : ColorTree (TreeCell α)) :
    TaggedTree.childEntry (link T) = rootOf T := by
  cases T <;> rfl

variable {h h' : Nat → TreeNode α} {T : ColorTree (TreeCell α)} {ctx : List (RBFrame (TreeCell α))}

theorem isHole_link_eq_true : (link T).isHole = true ↔ T = .nil := by
  cases T <;> simp [link]

/-- The entry of node `a` with parent `p` and links `near` at side `s`, `far` at the other. -/
def nodeRec (a : TreeCell α) (red : Bool) (p : Int) (s : Side) (near far : JSTaggedValue α) :
    TreeNode α :=
  match s with
  | .left => ⟨a.key, a.value, .int (TreeColor.ofRed red).toInt, .int p, near, far⟩
  | .right => ⟨a.key, a.value, .int (TreeColor.ofRed red).toInt, .int p, far, near⟩

section NodeRec

variable (a : TreeCell α) (red : Bool) (p : Int) (s : Side) (near far v : JSTaggedValue α)

@[simp] theorem key_nodeRec : (nodeRec a red p s near far).key = a.key := by cases s <;> rfl
@[simp] theorem value_nodeRec : (nodeRec a red p s near far).value = a.value := by cases s <;> rfl
@[simp] theorem color_nodeRec : (nodeRec a red p s near far).color =
    .int (TreeColor.ofRed red).toInt := by
  cases s <;> rfl
@[simp] theorem parent_nodeRec : (nodeRec a red p s near far).parent = .int p := by cases s <;> rfl
@[simp] theorem child_nodeRec : (nodeRec a red p s near far).child s = near := by cases s <;> rfl
@[simp] theorem child_opp_nodeRec : (nodeRec a red p s near far).child s.opp = far := by
  cases s <;> rfl
@[simp] theorem withChild_nodeRec :
    (nodeRec a red p s near far).withChild s v = nodeRec a red p s v far := by cases s <;> rfl
@[simp] theorem withChild_opp_nodeRec :
    (nodeRec a red p s near far).withChild s.opp v = nodeRec a red p s near v := by cases s <;> rfl

theorem withParent_nodeRec (q : Int) :
    { nodeRec a red p s near far with parent := .int q } = nodeRec a red q s near far := by
  cases s <;> rfl

theorem withColor_nodeRec (red' : Bool) :
    { nodeRec a red p s near far with color := .int (TreeColor.ofRed red').toInt } =
      nodeRec a red' p s near far := by
  cases s <;> rfl

end NodeRec

/-- The entries `h` encode `T` below parent `p`. -/
def Holds (h : Nat → TreeNode α) (p : Int) : ColorTree (TreeCell α) → Prop
  | .nil => True
  | .node l red a r =>
      (h a.entry = nodeRec a red p .left (link l) (link r) ∧ a.key ≠ .hole) ∧
      Holds h a.entry l ∧ Holds h a.entry r

/-- The entries `h` encode the nodes around a focus named by `l`. -/
def HoldsCtx (h : Nat → TreeNode α) : JSTaggedValue α → List (RBFrame (TreeCell α)) → Prop
  | _, [] => True
  | l, f :: ctx =>
      (h f.a.entry = nodeRec f.a f.red (ctxParent ctx) f.side l (link f.sibling) ∧ f.a.key ≠ .hole) ∧
      Holds h f.a.entry f.sibling ∧ HoldsCtx h (.int f.a.entry) ctx

/-- The entries of the nodes of a tree. -/
def entriesOf (T : ColorTree (TreeCell α)) : List Nat := T.toList.map TreeCell.entry

/-- The entries of the nodes around a focus. -/
def ctxEntries (ctx : List (RBFrame (TreeCell α))) : List Nat := (ctxLabels ctx).map TreeCell.entry

theorem holds_join {p : Int} {s : Side} {near far : ColorTree (TreeCell α)} {red : Bool} {a : TreeCell α} :
    Holds h p (join s near red a far) ↔
      (h a.entry = nodeRec a red p s (link near) (link far) ∧ a.key ≠ .hole) ∧
      Holds h a.entry near ∧ Holds h a.entry far := by
  cases s
  · exact Iff.rfl
  · exact and_congr Iff.rfl and_comm

theorem holds_plug : Holds h (-1) (plug ctx T) ↔ HoldsCtx h (link T) ctx ∧ Holds h (ctxParent ctx) T := by
  induction ctx generalizing T with
  | nil => simp [plug, HoldsCtx, ctxParent]
  | cons f ctx ih =>
    rw [plug, ih, RBFrame.fill, holds_join, link_join]
    simp only [HoldsCtx, ctxParent]
    tauto

theorem Holds.congr {p : Int} (holds : Holds h p T) (same : ∀ e ∈ entriesOf T, h' e = h e) : Holds h' p T := by
  induction T generalizing p with
  | nil => trivial
  | node l red a r ihl ihr =>
    obtain ⟨⟨here, key⟩, left, right⟩ := holds
    refine ⟨⟨?_, key⟩, ihl left ?_, ihr right ?_⟩
    · rw [same _ (by simp [entriesOf, toList]), here]
    · intro e he
      exact same e (by simp only [entriesOf, toList, List.map_append, List.mem_append] at he ⊢; tauto)
    · intro e he
      exact same e (by
        simp only [entriesOf, toList, List.map_append, List.map_cons, List.mem_append,
          List.mem_cons] at he ⊢; tauto)

theorem HoldsCtx.congr {l : JSTaggedValue α} (holds : HoldsCtx h l ctx)
    (same : ∀ e ∈ ctxEntries ctx, h' e = h e) : HoldsCtx h' l ctx := by
  induction ctx generalizing l with
  | nil => trivial
  | cons f ctx ih =>
    obtain ⟨⟨here, key⟩, sibling, outer⟩ := holds
    simp only [ctxEntries, ctxLabels, List.cons_append, List.map_cons, List.map_append,
      List.mem_cons, List.mem_append] at same
    refine ⟨⟨?_, key⟩, sibling.congr fun e he => same e (.inr (.inl he)),
      ih outer fun e he => same e (.inr (.inr he))⟩
    rw [same _ (.inl rfl), here]

/-- The tree hangs below another parent. -/
theorem Holds.reparent {p q : Int} (holds : Holds h p T) (distinct : (entriesOf T).Nodup)
    (same : ∀ e ∈ entriesOf T, h' e = if (e : Int) = rootOf T then { h e with parent := .int q } else h e) :
    Holds h' q T := by
  cases T with
  | nil => trivial
  | node l red a r =>
    obtain ⟨⟨here, key⟩, left, right⟩ := holds
    simp only [entriesOf, toList, List.map_append, List.map_cons, List.mem_append,
      List.mem_cons, rootOf, Int.natCast_inj] at same distinct
    have away := (List.nodup_middle.mp distinct)
    simp only [List.nodup_cons, List.mem_append, not_or] at away
    refine ⟨⟨?_, key⟩, left.congr ?_, right.congr ?_⟩
    · rw [same _ (.inr (.inl rfl)), if_pos rfl, here, withParent_nodeRec]
    · intro e he
      rw [same e (.inl he), if_neg]
      rintro rfl
      exact away.1.1 he
    · intro e he
      rw [same e (.inr (.inr he)), if_neg]
      rintro rfl
      exact away.1.2 he

/-- Another tree stands in the focus. -/
theorem HoldsCtx.relink {l l' : JSTaggedValue α} (holds : HoldsCtx h l ctx)
    (distinct : (ctxEntries ctx).Nodup) (same : ∀ e ∈ ctxEntries ctx, (e : Int) ≠ ctxParent ctx → h' e = h e)
    (changed : ∀ f rest, ctx = f :: rest → h' f.a.entry = (h f.a.entry).withChild f.side l') :
    HoldsCtx h' l' ctx := by
  cases ctx with
  | nil => trivial
  | cons f ctx =>
    obtain ⟨⟨here, key⟩, sibling, outer⟩ := holds
    simp only [ctxEntries, ctxLabels, List.cons_append, List.map_cons, List.map_append,
      List.mem_cons, List.mem_append, ctxParent, List.nodup_cons, not_or, ne_eq,
      Int.natCast_inj] at same distinct
    refine ⟨⟨?_, key⟩, sibling.congr ?_, outer.congr ?_⟩
    · rw [changed f ctx rfl, here, withChild_nodeRec]
    · intro e he
      refine same e (.inr (.inl he)) ?_
      rintro rfl
      exact distinct.1.1 he
    · intro e he
      refine same e (.inr (.inr he)) ?_
      rintro rfl
      exact distinct.1.2 he

end ArkRuntime
