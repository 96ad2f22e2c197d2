import ArkRuntime.TaggedTree.Rotate

/-!
# `AdjustTaggedTree`

The copy of a tree into a new table numbers the nodes in breadth-first order. `Placed` is the state
of the new table for the subtrees that still wait in the queue: each has an entry of its own, whose
parent is written and whose other fields are not. When the queue is empty, each of them stands
below its parent, with the same shape, colours, keys and values (`Renumbered`).
-/

namespace ArkRuntime

open ColorTree

variable {d : TreeDerived} {α : Type}

/-- Key and value of a node. -/
def TreeCell.data (c : TreeCell α) : JSTaggedValue α × JSTaggedValue α := (c.key, c.value)

/-- An entry of a new array. -/
def blankNode : TreeNode α := ⟨.hole, .hole, .hole, .hole, .hole, .hole⟩

/-- The entries from `i` on wait for the queued subtrees below the given parents. -/
def Placed (cells : Nat → TreeNode α) : Nat → List (Int × ColorTree (TreeCell α)) → Prop
  | _, [] => True
  | i, (p, _) :: queue => cells i = { blankNode with parent := .int p } ∧ Placed cells (i + 1) queue

/-- The entries from `i` on are the roots of copies of the queued subtrees. -/
def Renumbered (cells : Nat → TreeNode α) :
    Nat → List (Int × ColorTree (TreeCell α)) → List (ColorTree (TreeCell α)) → Prop
  | _, [], copies => copies = []
  | i, (p, S) :: queue, copies =>
      ∃ S' copies', copies = S' :: copies' ∧ rootOf S' = i ∧ S'.map TreeCell.data = S.map TreeCell.data ∧
        Holds cells p S' ∧ Renumbered cells (i + 1) queue copies'

theorem placed_append {cells : Nat → TreeNode α} {i : Nat} {q q' : List (Int × ColorTree (TreeCell α))} :
    Placed cells i (q ++ q') ↔ Placed cells i q ∧ Placed cells (i + q.length) q' := by
  induction q generalizing i with
  | nil => simp [Placed]
  | cons entry q ih =>
    simp only [List.cons_append, Placed, ih, List.length_cons, and_assoc,
      Nat.add_assoc, Nat.add_comm 1]

theorem Placed.congr {cells cells' : Nat → TreeNode α} {i : Nat}
    {q : List (Int × ColorTree (TreeCell α))} (placed : Placed cells i q)
    (same : ∀ e, i ≤ e → e < i + q.length → cells' e = cells e) : Placed cells' i q := by
  induction q generalizing i with
  | nil => trivial
  | cons entry q ih =>
    simp only [List.length_cons] at same
    refine ⟨by rw [same i le_rfl (by omega)]; exact placed.1, ih placed.2 ?_⟩
    intro e low high
    exact same e (by omega) (by omega)

theorem renumbered_append {cells : Nat → TreeNode α} {i : Nat}
    {q q' : List (Int × ColorTree (TreeCell α))} {copies : List (ColorTree (TreeCell α))}
    (h : Renumbered cells i (q ++ q') copies) :
    ∃ c c', copies = c ++ c' ∧ Renumbered cells i q c ∧ Renumbered cells (i + q.length) q' c' := by
  induction q generalizing i copies with
  | nil => exact ⟨[], copies, rfl, rfl, h⟩
  | cons entry q ih =>
    obtain ⟨S', copies', rfl, root, same, holds, rest⟩ := h
    obtain ⟨c, c', rfl, first, second⟩ := ih rest
    refine ⟨S' :: c, c', rfl, ⟨S', c, rfl, root, same, holds, first⟩, ?_⟩
    rwa [List.length_cons, Nat.add_comm q.length, ← Nat.add_assoc]

/-- The children that join the queue. -/
def kidsOf (i : Int) (l r : ColorTree (TreeCell α)) : List (Int × ColorTree (TreeCell α)) :=
  (match l with | .nil => [] | l => [(i, l)]) ++ (match r with | .nil => [] | r => [(i, r)])

namespace TaggedTree

theorem value_eq_key_of_set (t : TaggedTree .set α) (e : Nat) : (t.cells e).value = (t.cells e).key := by
  show t.get (entryToIndex .set e + 0) = t.get (entryToIndex .set e)
  rw [Int.add_zero]

/-- `CopyEntry`, in terms of the entries. -/
theorem cells_copyEntry (t n : TaggedTree d α) (e i : Nat) :
    (t.copyEntry e n i).cells = Function.update n.cells i
      { n.cells i with
        key := (t.cells e).key, value := (t.cells e).value, color := .int (t.getColor e).toInt } := by
  have sameValue : d = .set → (t.cells e).value = (t.cells e).key := by
    rintro rfl
    exact value_eq_key_of_set t e
  simp only [copyEntry, cells_setValue, cells_setColor, cells_setKey, getKey_natCast,
    getColor_natCast, getValue_natCast, Function.update_self, Function.update_idem]
  congr 1
  cases d with
  | map => rfl
  | set => simp [TreeNode.withKey, TreeNode.withValue, sameValue rfl]

theorem hdr_copyEntry (t n : TaggedTree d α) (e i : Nat) : (t.copyEntry e n i).hdr = n.hdr := by
  simp [copyEntry]

/-- A new child entry `c` at side `s` of entry `i`. -/
def attach (s : Side) (n : TaggedTree d α) (i c : Int) : TaggedTree d α :=
  (setChild s n i (.int c)).setParent c (.int i)

theorem hdr_attach (s : Side) (n : TaggedTree d α) (i c : Nat) : (attach s n i c).hdr = n.hdr := by
  simp [attach]

theorem cells_attach (s : Side) (n : TaggedTree d α) {i c : Nat} (ne : c ≠ i) (e : Nat) :
    (attach s n i c).cells e =
      if e = c then { n.cells e with parent := .int i }
      else if e = i then (n.cells i).withChild s (.int c) else n.cells e := by
  simp only [attach, cells_setParent, cells_setChild, Function.update_apply, if_neg ne]
  split_ifs with h
  · rw [h]
  · rfl
  · rfl

/-- The children of a node in the new table: their links, and the number of the next free entry. -/
def attachKids (n : TaggedTree d α) (i c : Int) (l r : ColorTree (TreeCell α)) : TaggedTree d α :=
  match l, r with
  | .nil, .nil => n
  | .nil, _ => attach .right n i c
  | _, .nil => attach .left n i c
  | _, _ => attach .right (attach .left n i c) i (c + 1)

section Step

variable {tree n : TaggedTree d α} {l r : ColorTree (TreeCell α)} {red : Bool} {a : TreeCell α} {po : Int}
  {p : Int} {i c : Nat} {rest : List Int}

theorem adjustStep_eq (holds : Holds tree.cells po (.node l red a r)) (n : TaggedTree d α)
    (rest : List Int) (i c : Int) :
    adjustStep tree (n, (a.entry : Int) :: rest, i, c) =
      .inl (tree.copyEntry a.entry (attachKids n i c l r) i,
        rest ++ (kidsOf i l r).map (fun k => rootOf k.2), i + 1, c + (kidsOf i l r).length) := by
  obtain ⟨⟨here, -⟩, -, -⟩ := holds
  have leftHere : tree.getLeftChild a.entry = link l := by rw [getLeftChild_natCast, here]; rfl
  have rightHere : tree.getRightChild a.entry = link r := by rw [getRightChild_natCast, here]; rfl
  simp only [adjustStep, leftHere, rightHere]
  cases l <;> cases r <;> simp [link, kidsOf, attachKids, attach, setChild, rootOf]
  omega

/-- The link to a child that will be entry `c`. -/
def newLink (c : Nat) (T : ColorTree (TreeCell α)) : JSTaggedValue α :=
  match T with
  | .nil => .hole
  | _ => .int c

theorem cells_attachKids (later : i < c) (blank : n.cells i = { blankNode with parent := .int p }) (e : Nat) :
    (attachKids n i c l r).cells e =
      if e = i then
        { blankNode with
          parent := .int p, left := newLink c l, right := newLink (c + (kidsOf i l .nil).length) r }
      else if c ≤ e ∧ e < c + (kidsOf i l r).length then { n.cells e with parent := .int i }
      else n.cells e := by
  have ne : c ≠ i := by omega
  have ne' : c + 1 ≠ i := by omega
  have both : ∀ e, (attach .right (attach .left n i c) i ((c : Int) + 1)).cells e = _ :=
    cells_attach .right (attach .left n i c) ne'
  by_cases hi : e = i
  · subst hi
    rw [if_pos rfl]
    cases l <;> cases r <;>
      simp [attachKids, cells_attach _ _ ne, both, blank, newLink, kidsOf, TreeNode.withChild, blankNode,
        Ne.symm ne, Ne.symm ne']
  · rw [if_neg hi]
    cases l <;> cases r <;>
      simp only [attachKids, cells_attach _ _ ne, both, hi, kidsOf, if_false, List.append_nil,
        List.nil_append, List.length_nil, List.length_cons, List.length_append, Nat.add_zero,
        Nat.zero_add]
    · rw [if_neg (by omega)]
    · exact if_congr (by omega) rfl rfl
    · exact if_congr (by omega) rfl rfl
    · by_cases h1 : e = c
      · rw [if_neg (by omega), if_pos h1, if_pos (by omega)]
      · by_cases h2 : e = c + 1
        · rw [if_pos h2, if_neg h1, if_pos (by omega)]
        · rw [if_neg h2, if_neg h1, if_neg (by omega)]

theorem hdr_attachKids : (attachKids n i c l r).hdr = n.hdr := by
  have both : (attach .right (attach .left n i c) i ((c : Int) + 1)).hdr = (attach .left n i c).hdr :=
    hdr_attach .right (attach .left n i c) i (c + 1)
  cases l <;> cases r <;> simp [attachKids, hdr_attach, both]

/-- One round of the copy, at a node with its children. -/
theorem cells_adjustStep (holds : Holds tree.cells po (.node l red a r)) (later : i < c)
    (blank : n.cells i = { blankNode with parent := .int p }) (e : Nat) :
    (tree.copyEntry a.entry (attachKids n i c l r) i).cells e =
      if e = i then
        nodeRec ⟨i, a.key, a.value⟩ red p .left (newLink c l) (newLink (c + (kidsOf i l .nil).length) r)
      else if c ≤ e ∧ e < c + (kidsOf i l r).length then { n.cells e with parent := .int i }
      else n.cells e := by
  obtain ⟨⟨here, -⟩, -, -⟩ := holds
  have color : tree.getColor a.entry = .ofRed red := by simp [here]
  rw [cells_copyEntry, Function.update_apply, here, color]
  by_cases hi : e = i
  · subst hi
    rw [if_pos rfl, if_pos rfl, cells_attachKids later blank, if_pos rfl]
    rfl
  · rw [if_neg hi, if_neg hi, cells_attachKids later blank, if_neg hi]

end Step

/-- The nodes of the queued subtrees. -/
def queueNodes (queue : List (Int × ColorTree (TreeCell α))) : List (TreeCell α) :=
  queue.flatMap fun k => k.2.toList

theorem length_queueNodes_kids (i : Int) (l r : ColorTree (TreeCell α)) :
    (queueNodes (kidsOf i l r)).length = l.toList.length + r.toList.length := by
  cases l <;> cases r <;> simp [queueNodes, kidsOf, toList]
  omega

theorem mem_kidsOf {i : Int} {l r : ColorTree (TreeCell α)} {k : Int × ColorTree (TreeCell α)}
    (h : k ∈ kidsOf i l r) : k.2 ≠ .nil ∧ (k.2 = l ∨ k.2 = r) := by
  cases l <;> cases r <;> simp only [kidsOf, List.append_nil, List.nil_append, List.mem_cons,
    List.cons_append, List.not_mem_nil, or_false] at h
  · subst h; simp
  · subst h; simp
  · rcases h with rfl | rfl <;> simp

theorem placed_kids {cells : Nat → TreeNode α} {i : Int} {c : Nat} {l r : ColorTree (TreeCell α)}
    (h : ∀ e, c ≤ e → e < c + (kidsOf i l r).length → cells e = { blankNode with parent := .int i }) :
    Placed cells c (kidsOf i l r) := by
  cases l <;> cases r <;> simp only [kidsOf, List.append_nil, List.nil_append, List.cons_append,
    List.length_cons, List.length_nil] at h ⊢ <;> simp only [Placed, and_true]
  · exact h c le_rfl (by omega)
  · exact h c le_rfl (by omega)
  · exact ⟨h c le_rfl (by omega), h (c + 1) (by omega) (by omega)⟩

/-- What the loop of `AdjustTaggedTree` has made of a queue that stands at entry `i`. -/
structure Copied (queue : List (Int × ColorTree (TreeCell α))) (i : Nat) (n n' : TaggedTree d α)
    (copies : List (ColorTree (TreeCell α))) : Prop where
  hdr : n'.hdr = n.hdr
  renumbered : Renumbered n'.cells i queue copies
  entries : (copies.flatMap entriesOf).Perm (List.range' i (queueNodes queue).length)
  before : ∀ e, e < i → n'.cells e = n.cells e
  blank : ∀ e, i + (queueNodes queue).length ≤ e → n'.cells e = blankNode

/-- The copies of the children of a node. -/
theorem renumbered_kids {cells : Nat → TreeNode α} {i : Int} {c : Nat} {l r : ColorTree (TreeCell α)}
    {copies : List (ColorTree (TreeCell α))} (h : Renumbered cells c (kidsOf i l r) copies) :
    ∃ l' r', link l' = newLink c l ∧ link r' = newLink (c + (kidsOf i l .nil).length) r ∧
      l'.map TreeCell.data = l.map TreeCell.data ∧ r'.map TreeCell.data = r.map TreeCell.data ∧
      Holds cells i l' ∧ Holds cells i r' ∧ copies.flatMap entriesOf = entriesOf l' ++ entriesOf r' := by
  -- an empty child is its own copy, the other copies are those of the queue
  have single : ∀ {j : Nat} {T : ColorTree (TreeCell α)} {copies : List (ColorTree (TreeCell α))},
      Renumbered cells j (match T with | .nil => [] | T => [(i, T)]) copies →
      ∃ T', link T' = newLink j T ∧ T'.map TreeCell.data = T.map TreeCell.data ∧ Holds cells i T' ∧
        copies.flatMap entriesOf = entriesOf T' := by
    intro j T copies hT
    cases T with
    | nil =>
      subst hT
      exact ⟨.nil, rfl, rfl, trivial, rfl⟩
    | node l red a r =>
      obtain ⟨T', rest, rfl, root, same, holds, rfl⟩ := hT
      refine ⟨T', ?_, same, holds, by simp⟩
      cases T' with
      | nil => simp [map] at same
      | node l' red' a' r' => simpa [rootOf, link, newLink] using root
  obtain ⟨cl, cr, rfl, left, right⟩ := renumbered_append h
  obtain ⟨l', linkl, samel, holdsl, entriesl⟩ := single left
  obtain ⟨r', linkr, samer, holdsr, entriesr⟩ := single right
  refine ⟨l', r', linkl, ?_, samel, samer, holdsl, holdsr, ?_⟩
  · rw [linkr]
    cases l <;> simp [kidsOf]
  · rw [List.flatMap_append, entriesl, entriesr]

theorem adjust_iter {tree : TaggedTree d α} (fuel : Nat) :
    ∀ (queue : List (Int × ColorTree (TreeCell α))) (i : Nat) (n : TaggedTree d α),
      (∀ k ∈ queue, k.2 ≠ .nil ∧ ∃ po, Holds tree.cells po k.2) → Placed n.cells i queue →
      (∀ e, i + queue.length ≤ e → n.cells e = blankNode) → (queueNodes queue).length < fuel →
      ∃ n' copies, iter (adjustStep tree) fuel
          (n, queue.map (fun k => rootOf k.2), (i : Int), (i : Int) + queue.length) = some n' ∧
        Copied queue i n n' copies := by
  induction fuel with
  | zero => intro _ _ _ _ _ _ below; omega
  | succ fuel ih =>
    intro queue i n good placed blank below
    cases queue with
    | nil =>
      exact ⟨n, [], iter_inr fuel rfl, rfl, rfl, .refl _, fun _ _ => rfl, blank⟩
    | cons k queue =>
      obtain ⟨p, S⟩ := k
      obtain ⟨nonempty, po, holds⟩ := good _ List.mem_cons_self
      cases S with
      | nil => exact absurd rfl nonempty
      | node l red a r =>
        have later : i < i + (queue.length + 1) := by omega
        -- the state after this round, and what it has become of the array
        have step := adjustStep_eq holds n (queue.map fun k => rootOf k.2) (i : Int)
          ((i + (queue.length + 1) : Nat) : Int)
        have cells := cells_adjustStep holds later placed.1
        have hdr : (tree.copyEntry a.entry (attachKids n i (i + (queue.length + 1) : Nat) l r) i).hdr =
            n.hdr := by rw [hdr_copyEntry, hdr_attachKids]
        generalize tree.copyEntry a.entry (attachKids n i (i + (queue.length + 1) : Nat) l r) i = n1 at step cells hdr
        have nodes : (queueNodes ((p, ColorTree.node l red a r) :: queue)).length =
            (queueNodes (queue ++ kidsOf i l r)).length + 1 := by
          have := length_queueNodes_kids i l r
          simp only [queueNodes, List.flatMap_append, List.flatMap_cons, List.length_append, toList,
            List.length_cons] at this ⊢
          omega
        have good1 : ∀ k ∈ queue ++ kidsOf i l r, k.2 ≠ .nil ∧ ∃ po, Holds tree.cells po k.2 := by
          intro k hk
          rcases List.mem_append.mp hk with hk | hk
          · exact good k (List.mem_cons_of_mem _ hk)
          · obtain ⟨notNil, rfl | rfl⟩ := mem_kidsOf hk
            · exact ⟨notNil, _, holds.2.1⟩
            · exact ⟨notNil, _, holds.2.2⟩
        have placed1 : Placed n1.cells (i + 1) (queue ++ kidsOf i l r) := by
          refine placed_append.mpr ⟨placed.2.congr ?_, ?_⟩
          · intro e low high
            rw [cells e, if_neg (by omega), if_neg (by omega)]
          · refine placed_kids fun e low high => ?_
            rw [cells e, if_neg (by omega), if_pos (by omega),
              blank e (by simp only [List.length_cons]; omega)]
        have blank1 : ∀ e, i + 1 + (queue ++ kidsOf i l r).length ≤ e → n1.cells e = blankNode := by
          intro e he
          rw [List.length_append] at he
          rw [cells e, if_neg (by omega), if_neg (by omega), blank e (by simp only [List.length_cons]; omega)]
        obtain ⟨n', copies, run, copied⟩ := ih _ (i + 1) n1 good1 placed1 blank1 (by omega)
        obtain ⟨first, second, rfl, renum, renumKids⟩ := renumbered_append copied.renumbered
        obtain ⟨l', r', linkl, linkr, samel, samer, holdsl, holdsr, entriesKids⟩ := renumbered_kids renumKids
        have here : n'.cells i = _ := (copied.before i (by omega)).trans (cells i)
        rw [if_pos rfl] at here
        refine ⟨n', .node l' red ⟨i, a.key, a.value⟩ r' :: first, ?_, ?_⟩
        · rw [List.map_cons, List.length_cons, iter_inl fuel (by exact_mod_cast step)]
          rw [List.map_append, List.length_append] at run
          convert run using 3
          push_cast
          rw [show (i : Int) + (queue.length + 1) + (kidsOf i l r).length =
            i + 1 + (queue.length + (kidsOf i l r).length) by omega]
        · refine ⟨by rw [copied.hdr, hdr], ⟨_, first, rfl, rfl, ?_, ⟨⟨?_, ?_⟩, holdsl, holdsr⟩, renum⟩, ?_, ?_, ?_⟩
          · simp only [map, samel, samer]; rfl
          · rw [here, linkl, linkr, show i + (queue.length + 1) = i + 1 + queue.length by omega]
          · exact holds.1.2
          · rw [nodes, List.range'_succ]
            have entries := copied.entries
            rw [List.flatMap_append, entriesKids] at entries
            refine List.Perm.trans ?_ (entries.cons i)
            simp only [List.flatMap_cons, entriesOf, toList, List.map_append, List.map_cons,
              List.append_assoc, List.cons_append]
            refine List.perm_middle.trans (List.Perm.cons _ ?_)
            rw [← List.append_assoc]
            exact List.perm_append_comm
          · intro e he
            rw [copied.before e (by omega), cells e, if_neg (by omega), if_neg (by omega)]
          · intro e he
            exact copied.blank e (by omega)

/-- The new table of `AdjustTaggedTree` before the copy. -/
def adjustStart (tree : TaggedTree d α) (len : Int) : TaggedTree d α :=
  let newTree : TaggedTree d α := ⟨.newTaggedArray len⟩
  let newTree := newTree.setNumberOfElements tree.numberOfElements
  let newTree := newTree.setNumberOfDeletedElements 0
  let newTree := newTree.setRootEntries 0
  newTree.setParent 0 (.int (-1))

theorem adjustTaggedTree_eq (tree : TaggedTree d α) (len : Int)
    (deleted : tree.hdr.deleted ≠ 0) :
    tree.adjustTaggedTree len =
      iter (adjustStep tree) tree.fuel (adjustStart tree len, [tree.getRootEntries], 0, 1) := by
  rw [adjustTaggedTree, numberOfDeletedElements_eq, if_neg deleted]
  rfl

theorem cells_newTaggedArray (len : Int) (e : Nat) :
    (⟨.newTaggedArray len⟩ : TaggedTree d α).cells e = blankNode := rfl

theorem hdr_adjustStart (tree : TaggedTree d α) (len : Int) :
    (adjustStart tree len).hdr = ⟨tree.hdr.elements, 0, 0, 0, .hole, len, fun _ => .hole⟩ := by
  have below : (fun i : Int => if i < 0 then (.hole : JSTaggedValue α) else .hole) = fun _ => .hole := by
    funext i
    split_ifs <;> rfl
  have parent : (adjustStart tree len).hdr = _ := hdr_setParent _ 0 _
  rw [parent]
  simp only [hdr_setRootEntries, hdr_setNumberOfDeletedElements, hdr_setNumberOfElements,
    numberOfElements_eq]
  exact congrArg _ below

theorem cells_adjustStart (tree : TaggedTree d α) (len : Int) (e : Nat) :
    (adjustStart tree len).cells e = if e = 0 then { blankNode with parent := .int (-1) } else blankNode := by
  have parent : (adjustStart tree len).cells = _ := cells_setParent _ 0 _
  rw [parent]
  simp only [Function.update_apply, cells_setRootEntries, cells_setNumberOfDeletedElements,
    cells_setNumberOfElements, cells_newTaggedArray]

/-- The compacting `AdjustTaggedTree`, on a tree with nodes. -/
theorem adjustTaggedTree_compact {tree : TaggedTree d α} {T : ColorTree (TreeCell α)} (len : Int)
    (enc : Encodes tree T) (nonempty : T ≠ .nil) (deleted : tree.hdr.deleted ≠ 0)
    (room : (T.toList.length : Int) ≤ tree.hdr.capacity) :
    ∃ newTree T', tree.adjustTaggedTree len = some newTree ∧ Encodes newTree T' ∧
      T'.map TreeCell.data = T.map TreeCell.data ∧
      (entriesOf T').Perm (List.range T.toList.length) ∧
      newTree.hdr = ⟨tree.hdr.elements, 0, 0, 0, .hole, len, fun _ => .hole⟩ ∧
      (∀ e, T.toList.length ≤ e → newTree.cells e = blankNode) := by
  have small : T.toList.length < tree.fuel := by
    simp only [fuel, capacity_eq]
    omega
  obtain ⟨newTree, copies, run, copied⟩ :=
    adjust_iter tree.fuel [(-1, T)] 0 (adjustStart tree len)
      (by simpa using ⟨nonempty, -1, enc.holds⟩) ⟨by rw [cells_adjustStart, if_pos rfl], trivial⟩
      (fun e he => by
        rw [cells_adjustStart, if_neg (by simp only [List.length_singleton] at he; omega)])
      (by simpa [queueNodes] using small)
  obtain ⟨T', rest, rfl, root, same, holds, rfl⟩ := copied.renumbered
  have entries := copied.entries
  simp only [List.flatMap_cons, List.flatMap_nil, List.append_nil, queueNodes] at entries
  rw [← List.range_eq_range'] at entries
  refine ⟨newTree, T', ?_, ⟨?_, holds, entries.nodup_iff.mpr List.nodup_range⟩, same, entries, ?_, ?_⟩
  · rw [adjustTaggedTree_eq tree len deleted, getRootEntries_eq, enc.root]
    exact run
  · rw [copied.hdr, hdr_adjustStart, root]
    rfl
  · rw [copied.hdr, hdr_adjustStart]
  · intro e he
    exact copied.blank e (by simpa [queueNodes] using he)

end TaggedTree

end ArkRuntime
