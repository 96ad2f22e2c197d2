import ArkRuntime.Misc.RedBlack

/-!
# Searching a binary tree

`search dir T` descends from the root of `T` as `dir` tells for each label met: stop here, go to one
side, or give up (`none`). It returns the focus where the descent ends. Where `dir` fits the order
of the labels (`Directed`), every label before the focus points right and every label after it
points left, so an empty focus means that no label is the one searched for.
-/

namespace ArkRuntime

open ColorTree

variable {β : Type}

/-- The descent from the focus `t`. -/
def search (dir : β → Option (Option Side)) :
    ColorTree β → List (RBFrame β) → Option (List (RBFrame β) × ColorTree β)
  | .nil, ctx => some (ctx, .nil)
  | .node l red a r, ctx =>
      match dir a with
      | none => none
      | some none => some (ctx, .node l red a r)
      | some (some .left) => search dir l (⟨.left, red, a, r⟩ :: ctx)
      | some (some .right) => search dir r (⟨.right, red, a, l⟩ :: ctx)

variable {dir : β → Option (Option Side)}

variable {t : ColorTree β} {ctx ctx' : List (RBFrame β)} {a : β}

theorem plug_of_search {t' : ColorTree β} (found : search dir t ctx = some (ctx', t')) :
    plug ctx' t' = plug ctx t := by
  induction t generalizing ctx with
  | nil =>
    simp only [search, Option.some.injEq, Prod.mk.injEq] at found
    rw [← found.1, ← found.2]
  | node l red a r ihl ihr =>
    rw [search] at found
    split at found
    · simp at found
    · simp only [Option.some.injEq, Prod.mk.injEq] at found
      rw [← found.1, ← found.2]
    · exact ihl found
    · exact ihr found

/-- A descent that does not end in an empty tree ends where `dir` stops. -/
theorem dir_of_search {l r : ColorTree β} {red : Bool}
    (found : search dir t ctx = some (ctx', .node l red a r)) : dir a = some none := by
  induction t generalizing ctx with
  | nil => simp [search] at found
  | node l' red' a' r' ihl ihr =>
    rw [search] at found
    split at found
    · simp at found
    · next here =>
      simp only [Option.some.injEq, Prod.mk.injEq, ColorTree.node.injEq] at found
      rw [← found.2.2.2.1, here]
    · exact ihl found
    · exact ihr found

section Map

variable {γ : Type} (f : β → γ) (g : γ → Option (Option Side))

def RBFrame.map (fr : RBFrame β) : RBFrame γ := ⟨fr.side, fr.red, f fr.a, fr.sibling.map f⟩

/-- A descent that reads of each label only what `f` keeps of it. -/
theorem search_map (t : ColorTree β) (ctx : List (RBFrame β)) :
    search g (t.map f) (ctx.map (RBFrame.map f)) =
      (search (fun a => g (f a)) t ctx).map fun s => (s.1.map (RBFrame.map f), s.2.map f) := by
  induction t generalizing ctx with
  | nil => rfl
  | node l red a r ihl ihr =>
    simp only [ColorTree.map, search]
    split
    · rfl
    · rfl
    · exact ihl (⟨.left, red, a, r⟩ :: ctx)
    · exact ihr (⟨.right, red, a, l⟩ :: ctx)

theorem labelsBefore_map (ctx : List (RBFrame β)) :
    labelsBefore (ctx.map (RBFrame.map f)) = (labelsBefore ctx).map f := by
  induction ctx with
  | nil => rfl
  | cons fr ctx ih =>
    simp only [List.map_cons, labelsBefore, ih, List.map_append, RBFrame.map]
    cases fr.side <;> simp [toList_map]

theorem labelsAfter_map (ctx : List (RBFrame β)) :
    labelsAfter (ctx.map (RBFrame.map f)) = (labelsAfter ctx).map f := by
  induction ctx with
  | nil => rfl
  | cons fr ctx ih =>
    simp only [List.map_cons, labelsAfter, ih, List.map_append, RBFrame.map]
    cases fr.side <;> simp [toList_map]

end Map

/-- The labels before one that points right point right, those after one that points left point
    left. -/
def Directed (dir : β → Option (Option Side)) (labels : List β) : Prop :=
  labels.Pairwise fun a b =>
    (dir a = some (some .left) → dir b = some (some .left)) ∧
    (dir b = some (some .right) → dir a = some (some .right))

theorem search_directed {t' : ColorTree β} (found : search dir t ctx = some (ctx', t'))
    (directed : Directed dir (plug ctx t).toList)
    (before : ∀ a ∈ labelsBefore ctx, dir a = some (some .right))
    (after : ∀ a ∈ labelsAfter ctx, dir a = some (some .left)) :
    (∀ a ∈ labelsBefore ctx', dir a = some (some .right)) ∧
      (∀ a ∈ labelsAfter ctx', dir a = some (some .left)) := by
  induction t generalizing ctx with
  | nil =>
    simp only [search, Option.some.injEq, Prod.mk.injEq] at found
    rw [← found.1]
    exact ⟨before, after⟩
  | node l red a r ihl ihr =>
    have inner : Directed dir (l.toList ++ a :: r.toList) := by
      rw [Directed, toList_plug] at directed
      exact (List.pairwise_append.mp (List.pairwise_append.mp directed).1).2.1
    obtain ⟨-, right, cross⟩ := List.pairwise_append.mp inner
    rw [search] at found
    split at found
    · simp at found
    · simp only [Option.some.injEq, Prod.mk.injEq] at found
      rw [← found.1]
      exact ⟨before, after⟩
    · next left =>
      refine ihl found directed ?_ ?_
      · simpa [labelsBefore] using before
      · intro b hb
        simp only [labelsAfter, List.cons_append, List.mem_cons, List.mem_append] at hb
        rcases hb with rfl | hb | hb
        · exact left
        · exact ((List.pairwise_cons.mp right).1 b hb).1 left
        · exact after b hb
    · next right' =>
      refine ihr found directed ?_ ?_
      · intro b hb
        simp only [labelsBefore, List.mem_append, List.mem_singleton] at hb
        rcases hb with hb | hb | rfl
        · exact before b hb
        · exact (cross b hb a List.mem_cons_self).2 right'
        · exact right'
      · simpa [labelsAfter] using after

/-- A descent in an ordered tree that ends in an empty tree has met no label to stop at. -/
theorem not_here_of_search (found : search dir t [] = some (ctx, .nil)) (directed : Directed dir t.toList) :
    ∀ a ∈ t.toList, dir a ≠ some none := by
  obtain ⟨before, after⟩ := search_directed found directed (by simp [labelsBefore])
    (by simp [labelsAfter])
  intro a ha
  have whole : t.toList = labelsBefore ctx ++ labelsAfter ctx := by
    have := congrArg toList (plug_of_search found)
    rw [toList_plug] at this
    simpa [plug, toList] using this.symm
  rw [whole, List.mem_append] at ha
  rcases ha with ha | ha
  · rw [before a ha]; simp
  · rw [after a ha]; simp

/-! ## The last label that is taken

A descent that remembers the last label `take` holds of and goes on behind it, and in front of any other
label. The order is that of the labels for the right side and the opposite one for the left. -/

/-- The labels in the order in which side `s` is last. -/
def listTo (s : Side) (t : ColorTree β) : List β :=
  match s with
  | .left => t.toList.reverse
  | .right => t.toList

@[simp] theorem listTo_nil (s : Side) : listTo s (.nil : ColorTree β) = [] := by cases s <;> rfl

theorem listTo_join (s : Side) (near far : ColorTree β) (red : Bool) (a : β) :
    listTo s (join s near red a far) = listTo s far ++ a :: listTo s near := by
  cases s <;> simp [listTo, toList]

@[simp] theorem mem_listTo {s : Side} : a ∈ listTo s t ↔ a ∈ t.toList := by
  cases s <;> simp [listTo]

def lastTaken (s : Side) (take : β → Bool) : ColorTree β → Option β → Option β
  | .nil, best => best
  | .node l _ a r, best =>
      match s with
      | .left => if take a then lastTaken .left take l (some a) else lastTaken .left take r best
      | .right => if take a then lastTaken .right take r (some a) else lastTaken .right take l best

theorem lastTaken_join (s : Side) (take : β → Bool) (near far : ColorTree β) (red : Bool) (a : β)
    (best : Option β) : lastTaken s take (join s near red a far) best =
      if take a then lastTaken s take near (some a) else lastTaken s take far best := by
  cases s <;> rfl

theorem size_join (s : Side) (near far : ColorTree β) (red : Bool) (a : β) :
    (join s near red a far).toList.length = near.toList.length + far.toList.length + 1 :=
  (toList_join_perm s near far red a).length_eq.trans (by simp)

/-- A property of trees holds if a node has it whose children, at side `s` and at the other, have it. -/
theorem join_induction (s : Side) {P : ColorTree β → Prop} (empty : P .nil)
    (node : ∀ near red a far, P near → P far → P (join s near red a far)) (t : ColorTree β) : P t := by
  induction t with
  | nil => exact empty
  | node l red a r ihl ihr =>
    cases s with
    | left => exact node l red a r ihl ihr
    | right => exact node r red a l ihr ihl

/-- Where `take` holds of all labels before one it holds of, the descent finds the last of these. -/
theorem lastTaken_eq (s : Side) (take : β → Bool) (t : ColorTree β)
    (closed : (listTo s t).Pairwise fun a b => take b = true → take a = true) (best : Option β) :
    lastTaken s take t best = ((listTo s t).filter take).getLast?.or best := by
  induction t using join_induction s generalizing best with
  | empty => simp [lastTaken]
  | node near red a far ihn ihf =>
    rw [listTo_join, List.pairwise_append] at closed
    obtain ⟨before, behind, across⟩ := closed
    obtain ⟨here, after⟩ := List.pairwise_cons.mp behind
    rw [lastTaken_join, listTo_join, List.filter_append, List.filter_cons]
    by_cases taken : take a = true
    · rw [if_pos taken, if_pos taken, ihn after, List.getLast?_append]
      cases (List.filter take (listTo s near)).eq_nil_or_concat' with
      | inl empty => simp [empty]
      | inr concat =>
        obtain ⟨front, last, whole⟩ := concat
        simp [whole, List.getLast?_cons]
    · have skipped : (listTo s near).filter take = [] := by
        rw [List.filter_eq_nil_iff]
        exact fun b mem yes => taken (here b mem yes)
      rw [if_neg taken, if_neg taken, ihf before, skipped, List.append_nil]

/-- The tree around a focus ends with the focus if all frames have it at that side. -/
theorem getLast?_listTo_plug {s : Side} (sides : ∀ f ∈ ctx, f.side = s)
    (last : (listTo s t).getLast? = some a) : (listTo s (plug ctx t)).getLast? = some a := by
  induction ctx generalizing t with
  | nil => exact last
  | cons f ctx ih =>
    apply ih fun g mem => sides g (List.mem_cons_of_mem _ mem)
    rw [RBFrame.fill, sides f List.mem_cons_self, listTo_join, List.getLast?_append, List.getLast?_cons,
      last]
    rfl

end ArkRuntime

/-!
## Level order

The labels of a binary tree as a queue of subtrees yields them: the first tree of the queue gives its root
and puts its children at the end.
-/

namespace ArkRuntime

open ColorTree

variable {β : Type}

/-- A tree as a queue, empty for the empty tree. -/
def ColorTree.queued : ColorTree β → List (ColorTree β)
  | .nil => []
  | .node l red a r => [.node l red a r]

theorem flatMap_queued (t : ColorTree β) : t.queued.flatMap toList = t.toList := by
  cases t <;> simp [queued, toList]

theorem ne_nil_of_mem_queued {s t : ColorTree β} (mem : s ∈ t.queued) : s = t ∧ s ≠ .nil := by
  cases t with
  | nil => simp [queued] at mem
  | node l red a r =>
    rw [queued, List.mem_singleton] at mem
    exact ⟨mem, by simp [mem]⟩

/-- The labels of a queue of trees, for at most `fuel` trees. -/
def breadthFirst : Nat → List (ColorTree β) → List β
  | 0, _ => []
  | _ + 1, [] => []
  | fuel + 1, .nil :: queue => breadthFirst fuel queue
  | fuel + 1, .node l _ a r :: queue => a :: breadthFirst fuel (queue ++ (l.queued ++ r.queued))

def levelOrder (t : ColorTree β) : List β := breadthFirst t.toList.length t.queued

/-- How many labels are in a queue. -/
def queueSize (queue : List (ColorTree β)) : Nat := (queue.flatMap toList).length

theorem queueSize_node {l r : ColorTree β} {red : Bool} {a : β} {queue : List (ColorTree β)} :
    queueSize (.node l red a r :: queue) = queueSize (queue ++ (l.queued ++ r.queued)) + 1 := by
  simp only [queueSize, List.flatMap_cons, List.flatMap_append, flatMap_queued, toList, List.length_append,
    List.length_cons]
  omega

/-- Each label comes once. -/
theorem breadthFirst_perm {fuel : Nat} {queue : List (ColorTree β)} (trees : ∀ t ∈ queue, t ≠ .nil)
    (enough : queueSize queue ≤ fuel) : (breadthFirst fuel queue).Perm (queue.flatMap toList) := by
  induction fuel generalizing queue with
  | zero =>
    have empty : queue.flatMap toList = [] := List.length_eq_zero_iff.mp (by rw [queueSize] at enough; omega)
    rw [empty]
    exact List.Perm.nil
  | succ fuel ih =>
    cases queue with
    | nil => exact List.Perm.nil
    | cons t queue =>
      cases t with
      | nil => exact absurd rfl (trees .nil List.mem_cons_self)
      | node l red a r =>
        have later : ∀ t ∈ queue ++ (l.queued ++ r.queued), t ≠ .nil := by
          intro t mem
          rcases List.mem_append.mp mem with mem | mem
          · exact trees t (List.mem_cons_of_mem _ mem)
          · rcases List.mem_append.mp mem with mem | mem
            · exact (ne_nil_of_mem_queued mem).2
            · exact (ne_nil_of_mem_queued mem).2
        have rest := ih later (by rw [queueSize_node] at enough; omega)
        rw [breadthFirst, List.flatMap_cons, toList]
        refine (List.Perm.cons a rest).trans ?_
        rw [List.flatMap_append, List.flatMap_append, flatMap_queued, flatMap_queued, List.append_assoc,
          List.cons_append]
        refine List.Perm.trans ?_ List.perm_middle.symm
        refine List.Perm.cons a ?_
        rw [← List.append_assoc l.toList]
        exact List.perm_append_comm

theorem levelOrder_perm (t : ColorTree β) : (levelOrder t).Perm t.toList := by
  have perm : (breadthFirst t.toList.length t.queued).Perm (t.queued.flatMap toList) := breadthFirst_perm
    (fun s mem => (ne_nil_of_mem_queued mem).2) (by simp [queueSize, flatMap_queued])
  rwa [flatMap_queued] at perm

end ArkRuntime
