import ArkRuntime.Misc.TreeSearch
import ArkRuntime.TaggedTree.Focus

/-!
# `FindEntry` and the search of `Insert`

Both loops descend from the root by comparisons with the keys met, so both are the descent
`search` on the tree that the array encodes. The comparison is any function here, also one that
throws; `TotalOrderOn` says of a comparison that it is a strict total order on the keys in use.
-/

namespace ArkRuntime

open ColorTree

variable {d : TreeDerived} {α : Type}

/-- A comparison of two keys, as `EntryCompare` gives it. -/
abbrev KeyCompare (α : Type) := JSTaggedValue α → JSTaggedValue α → Completion ComparisonResult

/-- Where the search for `key` goes at a node. -/
def towards (cmp : KeyCompare α) (key : JSTaggedValue α) (c : TreeCell α) : Option (Option Side) :=
  match cmp key c.key with
  | .abrupt => none
  | .normal .equal => some none
  | .normal .less => some (some .left)
  | .normal _ => some (some .right)

namespace TaggedTree

variable {p : Int} {l r : ColorTree (TreeCell α)} {red : Bool} {a : TreeCell α} {newTree : TaggedTree d α}

section Descent

variable {env : CompareEnv α} {tree : TaggedTree d α} {key : JSTaggedValue α}

/-- What `FindEntry` returns for the focus that the descent ends at. -/
def foundEntry : Option (List (RBFrame (TreeCell α)) × ColorTree (TreeCell α)) → Completion Int
  | none => .abrupt
  | some (_, S) => .normal (rootOf S)

/-- The next entry of the descent into the child `T`. -/
def descendInto (T : ColorTree (TreeCell α)) : Int ⊕ Completion Int :=
  match T with
  | .nil => .inr (.normal (-1))
  | .node _ _ a _ => .inl a.entry

theorem findEntryStep_node (holds : Holds tree.cells p (.node l red a r)) (env : CompareEnv α)
    (key : JSTaggedValue α) :
    findEntryStep env tree key a.entry =
      match towards (tree.entryCompare env) key a with
      | none => .inr .abrupt
      | some none => .inr (.normal a.entry)
      | some (some .left) => descendInto l
      | some (some .right) => descendInto r := by
  obtain ⟨⟨here, notHole⟩, -, -⟩ := holds
  have keyHere : tree.getKey a.entry = a.key := by rw [getKey_natCast, here, key_nodeRec]
  have leftHere : tree.getLeftChild a.entry = link l := by rw [getLeftChild_natCast, here]; rfl
  have rightHere : tree.getRightChild a.entry = link r := by rw [getRightChild_natCast, here]; rfl
  have child : ∀ T : ColorTree (TreeCell α), (if (link T).isHole then .inr (.normal (-1))
      else .inl (link T).getInt : Int ⊕ Completion Int) = descendInto T := by
    intro T
    cases T <;> rfl
  simp only [findEntryStep, keyHere, JSTaggedValue.isHole_eq_false.mpr notHole, Bool.false_eq_true,
    if_false, leftHere, rightHere, child, towards]
  cases tree.entryCompare env key a.key with
  | abrupt => rfl
  | normal res => cases res <;> rfl

theorem findEntry_iter {S : ColorTree (TreeCell α)} {fuel : Nat} (ctx : List (RBFrame (TreeCell α)))
    (holds : Holds tree.cells p S) (nonempty : S ≠ .nil) (enough : S.toList.length ≤ fuel) :
    iter (findEntryStep env tree key) fuel (rootOf S) =
      some (foundEntry (search (towards (tree.entryCompare env) key) S ctx)) := by
  induction S generalizing p fuel ctx with
  | nil => exact absurd rfl nonempty
  | node l red a r ihl ihr =>
    have step := findEntryStep_node holds env key
    simp only [toList, List.length_append, List.length_cons] at enough
    obtain ⟨fuel, rfl⟩ : ∃ k, fuel = k + 1 := ⟨fuel - 1, by omega⟩
    -- a Hole ends the descent, else the loop goes on in the child
    have into : ∀ (T : ColorTree (TreeCell α)) (f : RBFrame (TreeCell α)),
        findEntryStep env tree key a.entry = descendInto T →
        (T ≠ .nil → iter (findEntryStep env tree key) fuel (rootOf T) =
          some (foundEntry (search (towards (tree.entryCompare env) key) T (f :: ctx)))) →
        iter (findEntryStep env tree key) (fuel + 1) a.entry =
          some (foundEntry (search (towards (tree.entryCompare env) key) T (f :: ctx))) := by
      intro T f go ih
      cases T with
      | nil => exact iter_inr fuel go
      | node l' red' a' r' => rw [iter_inl fuel go]; exact ih (by simp)
    rw [search]
    rcases dir : towards (tree.entryCompare env) key a with _ | _ | _ | _ <;> rw [dir] at step
    · exact iter_inr fuel step
    · exact iter_inr fuel step
    · exact into l _ step fun ne => ihl _ holds.2.1 ne (by omega)
    · exact into r _ step fun ne => ihr _ holds.2.2 ne (by omega)

/-- `FindEntry` is the descent from the root. -/
theorem findEntry_eq {T : ColorTree (TreeCell α)} (enc : Encodes tree T)
    (room : (T.toList.length : Int) ≤ tree.hdr.capacity) :
    tree.findEntry env key =
      some (foundEntry (search (towards (tree.entryCompare env) key) T [])) := by
  rw [findEntry, getRootEntries_eq, enc.root]
  cases T with
  | nil => rfl
  | node l red a r =>
    refine findEntry_iter [] enc.holds (by simp) ?_
    simp only [fuel, capacity_eq]
    omega

/-- What the search of `Insert` reports for the focus that the descent ends at. -/
def PointsAt : Option (List (RBFrame (TreeCell α)) × ColorTree (TreeCell α)) →
    Completion InsertPoint → Prop
  | none, point => point = .abrupt
  | some (_, .node _ _ a _), point => point = .normal (.found a.entry)
  | some ([], .nil), _ => False
  | some (f :: _, .nil), point =>
      ∃ res, point = .normal (.below f.a.entry res) ∧ (res = .less ↔ f.side = .left)

/-- The next state of the search of `Insert`, into the child `T` below entry `e`. -/
def insertInto (e : Nat) (res : ComparisonResult) (T : ColorTree (TreeCell α)) :
    Int × JSTaggedValue α × ComparisonResult ⊕ Completion InsertPoint :=
  match T with
  | .nil => .inr (.normal (.below e res))
  | .node _ _ a _ => .inl (a.entry, a.key, res)

theorem insertSearchStep_node (env : CompareEnv α) (tree : TaggedTree d α) (key : JSTaggedValue α)
    (res : ComparisonResult) (holds : Holds newTree.cells p (.node l red a r)) :
    ∃ res', res' ≠ .less ∧ insertSearchStep env tree newTree key (a.entry, a.key, res) =
      match towards (tree.entryCompare env) key a with
      | none => .inr .abrupt
      | some none => .inr (.normal (.found a.entry))
      | some (some .left) => insertInto a.entry .less l
      | some (some .right) => insertInto a.entry res' r := by
  obtain ⟨⟨here, notHole⟩, hl, hr⟩ := holds
  have leftHere : newTree.getLeftChild a.entry = link l := by rw [getLeftChild_natCast, here]; rfl
  have rightHere : newTree.getRightChild a.entry = link r := by
    rw [getRightChild_natCast, here]; rfl
  have child : ∀ (T : ColorTree (TreeCell α)) (res : ComparisonResult), Holds newTree.cells a.entry T →
      (if (link T).isHole then .inr (.normal (.below a.entry res))
        else .inl ((link T).getInt, newTree.getKey (link T).getInt, res) :
        Int × JSTaggedValue α × ComparisonResult ⊕ Completion InsertPoint) =
      insertInto a.entry res T := by
    intro T res holdsT
    cases T with
    | nil => rfl
    | node l' red' b r' =>
      simp only [link, JSTaggedValue.isHole_int, Bool.false_eq_true, if_false,
        JSTaggedValue.getInt_int, getKey_natCast, holdsT.1.1, key_nodeRec, insertInto]
  simp only [insertSearchStep, JSTaggedValue.isHole_eq_false.mpr notHole, Bool.false_eq_true,
    if_false, leftHere, rightHere, child l _ hl, child r _ hr, towards]
  cases tree.entryCompare env key a.key with
  | abrupt => exact ⟨.great, by decide, rfl⟩
  | normal res =>
    cases res with
    | undefined => exact ⟨.undefined, by decide, rfl⟩
    | great => exact ⟨.great, by decide, rfl⟩
    | less => exact ⟨.great, by decide, rfl⟩
    | equal => exact ⟨.great, by decide, rfl⟩

theorem insertSearch_iter {fuel : Nat} (ctx : List (RBFrame (TreeCell α))) (res : ComparisonResult)
    (holds : Holds newTree.cells p (.node l red a r))
    (enough : (ColorTree.node l red a r).toList.length ≤ fuel) :
    ∃ point, iter (insertSearchStep env tree newTree key) fuel (a.entry, a.key, res) = some point ∧
      PointsAt (search (towards (tree.entryCompare env) key) (.node l red a r) ctx) point := by
  generalize whole : ColorTree.node l red a r = S at holds enough
  induction S generalizing l red a r p fuel ctx res with
  | nil => simp at whole
  | node l' red' a' r' ihl ihr =>
    obtain ⟨rfl, rfl, rfl, rfl⟩ := ColorTree.node.inj whole
    obtain ⟨res', notLess, step⟩ :=
      insertSearchStep_node env tree key res holds
    simp only [toList, List.length_append, List.length_cons] at enough
    obtain ⟨fuel, rfl⟩ : ∃ k, fuel = k + 1 := ⟨fuel - 1, by omega⟩
    -- a Hole ends the descent, else the loop goes on in the child
    have into : ∀ (T : ColorTree (TreeCell α)) (f : RBFrame (TreeCell α)) (res' : ComparisonResult),
        f.a = a → (res' = .less ↔ f.side = .left) →
        insertSearchStep env tree newTree key (a.entry, a.key, res) = insertInto a.entry res' T →
        (∀ {l' : ColorTree (TreeCell α)} {red' : Bool} {b : TreeCell α} {r' : ColorTree (TreeCell α)},
          ColorTree.node l' red' b r' = T → ∃ point,
          iter (insertSearchStep env tree newTree key) fuel (b.entry, b.key, res') = some point ∧
          PointsAt (search (towards (tree.entryCompare env) key) T (f :: ctx)) point) →
        ∃ point, iter (insertSearchStep env tree newTree key) (fuel + 1) (a.entry, a.key, res) =
          some point ∧
          PointsAt (search (towards (tree.entryCompare env) key) T (f :: ctx)) point := by
      rintro T f res' rfl side go ih
      cases T with
      | nil => exact ⟨_, iter_inr fuel go, res', rfl, side⟩
      | node l' red' b r' =>
        obtain ⟨point, run, points⟩ := ih rfl
        exact ⟨point, by rw [iter_inl fuel go]; exact run, points⟩
    rw [search]
    rcases dir : towards (tree.entryCompare env) key a with _ | _ | _ | _ <;> rw [dir] at step
    · exact ⟨_, iter_inr fuel step, rfl⟩
    · exact ⟨_, iter_inr fuel step, rfl⟩
    · refine into l ⟨.left, red, a, r⟩ .less rfl (by simp) step ?_
      intro l' red' b r' hT
      subst hT
      exact ihl _ _ rfl holds.2.1 (by omega)
    · refine into r ⟨.right, red, a, l⟩ res' rfl (by simp [notLess]) step ?_
      intro l' red' b r' hT
      subst hT
      exact ihr _ _ rfl holds.2.2 (by omega)

/-- The search of `Insert` is the descent from the root. -/
theorem insertSearch_eq (env : CompareEnv α) (tree : TaggedTree d α) (key : JSTaggedValue α)
    {T : ColorTree (TreeCell α)} {parentKey : JSTaggedValue α} (enc : Encodes newTree T) (nonempty : T ≠ .nil)
    (sameKey : newTree.getRootKey = parentKey) (room : (T.toList.length : Int) ≤ newTree.hdr.capacity) :
    ∃ point, iter (insertSearchStep env tree newTree key) newTree.fuel
        (newTree.getRootEntries, parentKey, .undefined) = some point ∧
      PointsAt (search (towards (tree.entryCompare env) key) T []) point := by
  subst sameKey
  cases T with
  | nil => exact absurd rfl nonempty
  | node l red a r =>
    rw [getRootKey, getRootEntries_eq, enc.root, rootOf, getKey_natCast, enc.holds.1.1, key_nodeRec]
    refine insertSearch_iter [] .undefined enc.holds ?_
    simp only [fuel, capacity_eq]
    omega

end Descent

end TaggedTree

/-! ## Searching by a total order -/

/-- `cmp` is a strict total order on the keys in `K`, told by the three comparison results. -/
structure TotalOrderOn (cmp : KeyCompare α) (K : JSTaggedValue α → Prop) : Prop where
  total : ∀ x y, K x → K y →
    cmp x y = .normal .less ∨ cmp x y = .normal .equal ∨ cmp x y = .normal .great
  equal : ∀ x y, K x → K y → (cmp x y = .normal .equal ↔ x = y)
  great : ∀ x y, K x → K y → (cmp x y = .normal .great ↔ cmp y x = .normal .less)
  trans : ∀ x y z, K x → K y → K z → cmp x y = .normal .less → cmp y z = .normal .less →
    cmp x z = .normal .less

/-- The keys increase strictly. -/
def Increasing (cmp : KeyCompare α) (L : List (TreeCell α)) : Prop :=
  L.Pairwise fun a b => cmp a.key b.key = .normal .less

variable {c : TreeCell α}

section Order

variable {cmp : KeyCompare α} {K : JSTaggedValue α → Prop} {key : JSTaggedValue α}

theorem towards_left : towards cmp key c = some (some .left) ↔ cmp key c.key = .normal .less := by
  unfold towards
  cases cmp key c.key with
  | abrupt => simp
  | normal res => cases res <;> simp

theorem towards_here : towards cmp key c = some none ↔ cmp key c.key = .normal .equal := by
  unfold towards
  cases cmp key c.key with
  | abrupt => simp
  | normal res => cases res <;> simp

theorem TotalOrderOn.towards_right (order : TotalOrderOn cmp K) (hk : K key) (hc : K c.key) :
    towards cmp key c = some (some .right) ↔ cmp c.key key = .normal .less := by
  rw [← order.great _ _ hk hc]
  unfold towards
  rcases order.total _ _ hk hc with res | res | res <;> rw [res] <;> simp

/-- The search for a key in use follows the order of the nodes. -/
theorem TotalOrderOn.directed (order : TotalOrderOn cmp K) {L : List (TreeCell α)} (hk : K key)
    (hL : ∀ c ∈ L, K c.key) (sorted : Increasing cmp L) : Directed (towards cmp key) L := by
  refine List.Pairwise.imp_of_mem ?_ sorted
  intro a b ha hb less
  rw [towards_left, towards_left, order.towards_right hk (hL a ha), order.towards_right hk (hL b hb)]
  exact ⟨fun h => order.trans _ _ _ hk (hL a ha) (hL b hb) h less,
    fun h => order.trans _ _ _ (hL a ha) (hL b hb) hk less h⟩

/-- A comparison that is a total order never throws. -/
theorem TotalOrderOn.search_isSome (order : TotalOrderOn cmp K) (hk : K key)
    {T : ColorTree (TreeCell α)} (ctx : List (RBFrame (TreeCell α))) (hT : ∀ c ∈ T.toList, K c.key) :
    (search (towards cmp key) T ctx).isSome := by
  induction T generalizing ctx with
  | nil => rfl
  | node l red a r ihl ihr =>
    have ha := hT a (by simp [toList])
    have hl := fun ctx => ihl ctx fun c hc => hT c (by simp [toList, hc])
    have hr := fun ctx => ihr ctx fun c hc => hT c (by simp [toList, hc])
    rw [search]
    split
    · next stop =>
      unfold towards at stop
      rcases order.total _ _ hk ha with res | res | res <;> simp [res] at stop
    · rfl
    · exact hl _
    · exact hr _

end Order

end ArkRuntime
