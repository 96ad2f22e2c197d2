import ArkRuntime.TaggedTree.RedBlackArray

/-!
# Neighbours, ends and the sorted entries

`GetLowerKey`, `GetHigherKey`, `GetFirstKey`, `GetLastKey` and `GetSortArray` on an array that encodes a
search tree; its colours do not matter. The two searches for a neighbour are one descent that remembers
the last node it has left behind, mirrored.
-/

namespace ArkRuntime

open ColorTree TaggedTree

variable {d : TreeDerived} {α : Type}

/-- `cmp` never throws on keys in `K`, and tells a strict order by two of its results. -/
structure StrictOrderOn (cmp : KeyCompare α) (K : JSTaggedValue α → Prop) : Prop where
  normal : ∀ x y, K x → K y → ∃ res, cmp x y = .normal res
  great : ∀ x y, K x → K y → (cmp x y = .normal .great ↔ cmp y x = .normal .less)
  trans : ∀ x y z, K x → K y → K z → cmp x y = .normal .less → cmp y z = .normal .less →
    cmp x z = .normal .less

variable {cmp : KeyCompare α} {p : Int} {S : ColorTree (TreeCell α)} {a : TreeCell α}

theorem TotalOrderOn.strict {K : JSTaggedValue α → Prop} (order : TotalOrderOn cmp K) :
    StrictOrderOn cmp K where
  normal x y hx hy := by
    rcases order.total x y hx hy with res | res | res
    · exact ⟨_, res⟩
    · exact ⟨_, res⟩
    · exact ⟨_, res⟩
  great := order.great
  trans := order.trans

/-- The array is a search tree: its links are those of `T`, whose keys increase. -/
structure SearchTree (cmp : KeyCompare α) (K : JSTaggedValue α → Prop) (t : TaggedTree d α)
    (T : ColorTree (TreeCell α)) : Prop where
  encodes : Encodes t T
  elements : t.numberOfElements = T.toList.length
  room : (T.toList.length : Int) ≤ t.capacity
  keys : ∀ c ∈ T.toList, K c.key
  increasing : Increasing cmp T.toList

theorem Ordered.searchTree {env : CompareEnv α} {fn : JSTaggedValue α} {K : JSTaggedValue α → Prop}
    {t : TaggedTree d α} {T : ColorTree (TreeCell α)} (h : Ordered env fn K t T) :
    SearchTree (t.entryCompare env) K t T where
  encodes := h.table.encodes
  elements := by
    have elements := h.table.storage.elements
    rwa [entriesOf, List.length_map] at elements
  room := h.table.length_le
  keys := h.keys
  increasing := by
    rw [h.entryCompare_eq]
    exact h.increasing

/-- The entries that the links lead to. -/
inductive Stored (t : TaggedTree d α) : Int → Prop
  | root : 0 ≤ t.getRootEntries → Stored t t.getRootEntries
  | left {e : Int} : Stored t e → 0 ≤ t.getLeftChildIndex e → Stored t (t.getLeftChildIndex e)
  | right {e : Int} : Stored t e → 0 ≤ t.getRightChildIndex e → Stored t (t.getRightChildIndex e)

section Reach

variable {t : TaggedTree d α} {T : ColorTree (TreeCell α)}

theorem childAt_node {l r : ColorTree (TreeCell α)} {red : Bool} (holds : Holds t.cells p (.node l red a r)) :
    t.getLeftChildIndex a.entry = rootOf l ∧ t.getRightChildIndex a.entry = rootOf r :=
  childAt_join (s := .left) holds

theorem Holds.getKey (holds : Holds t.cells p S) (mem : a ∈ S.toList) :
    t.getKey a.entry = a.key ∧ a.key ≠ .hole := by
  induction S generalizing p with
  | nil => cases mem
  | node l red b r ihl ihr =>
    obtain ⟨⟨here, key⟩, left, right⟩ := holds
    simp only [toList, List.mem_append, List.mem_cons] at mem
    rcases mem with mem | rfl | mem
    · exact ihl left mem
    · exact ⟨by rw [getKey_natCast, here, key_nodeRec], key⟩
    · exact ihr right mem

theorem rootOf_nonneg : 0 ≤ rootOf S ↔ S ≠ .nil := by
  cases S <;> simp [rootOf]

theorem stored_below (holds : Holds t.cells p S) (root : S ≠ .nil → Stored t (rootOf S)) (mem : a ∈ S.toList) :
    Stored t a.entry := by
  induction S generalizing p with
  | nil => cases mem
  | node l red b r ihl ihr =>
    obtain ⟨leftChild, rightChild⟩ := childAt_node holds
    have here : Stored t b.entry := root (by simp)
    simp only [toList, List.mem_append, List.mem_cons] at mem
    rcases mem with mem | rfl | mem
    · refine ihl holds.2.1 (fun nonempty => ?_) mem
      rw [← leftChild]
      exact .left here (by rw [leftChild]; exact rootOf_nonneg.mpr nonempty)
    · exact here
    · refine ihr holds.2.2 (fun nonempty => ?_) mem
      rw [← rightChild]
      exact .right here (by rw [rightChild]; exact rootOf_nonneg.mpr nonempty)

/-- The links lead to the nodes of the tree. -/
theorem stored_iff (enc : Encodes t T) {e : Int} : Stored t e ↔ ∃ a ∈ T.toList, e = a.entry := by
  constructor
  · intro stored
    have root : ∀ S : ColorTree (TreeCell α), 0 ≤ rootOf S → (∀ a ∈ S.toList, a ∈ T.toList) →
        ∃ a ∈ T.toList, rootOf S = a.entry := by
      intro S nonneg part
      cases S with
      | nil => exact absurd rfl (rootOf_nonneg.mp nonneg)
      | node l red a r => exact ⟨a, part a (by simp [toList]), rfl⟩
    induction stored with
    | root nonneg =>
      rw [getRootEntries_eq, enc.root] at nonneg ⊢
      exact root T nonneg fun _ mem => mem
    | left _ nonneg ih =>
      obtain ⟨a, mem, rfl⟩ := ih
      obtain ⟨ctx, l, red, r, rfl⟩ := exists_focus mem
      rw [(childAt_node (holds_plug.mp enc.holds).2).1] at nonneg ⊢
      exact root l nonneg fun b hb => by rw [toList_plug_node]; simp [hb]
    | right _ nonneg ih =>
      obtain ⟨a, mem, rfl⟩ := ih
      obtain ⟨ctx, l, red, r, rfl⟩ := exists_focus mem
      rw [(childAt_node (holds_plug.mp enc.holds).2).2] at nonneg ⊢
      exact root r nonneg fun b hb => by rw [toList_plug_node]; simp [hb]
  · rintro ⟨a, mem, rfl⟩
    refine stored_below enc.holds (fun nonempty => ?_) mem
    rw [← enc.root, ← getRootEntries_eq]
    exact .root (by rw [getRootEntries_eq, enc.root]; exact rootOf_nonneg.mpr nonempty)

end Reach

/-! ## The neighbours of a key -/

/-- The result of the comparison with the keys that are on the way to side `s`. -/
def hit : Side → ComparisonResult
  | .left => .less
  | .right => .great

/-- One round of `GetLowerKey` (side right) and of `GetHigherKey` (side left). -/
def neighbourStep (s : Side) (env : CompareEnv α) (tree : TaggedTree d α) (key : JSTaggedValue α)
    (state : Int × Int) : Int × Int ⊕ Completion (JSTaggedValue α) :=
  let (parentIndex, resultIndex) := state
  if 0 ≤ parentIndex then
    match tree.entryCompare env key (tree.getKey parentIndex) with
    | .abrupt => .inr .abrupt
    | .normal res =>
        if res = hit s then .inl (childAt s tree parentIndex, parentIndex)
        else .inl (childAt s.opp tree parentIndex, resultIndex)
  else .inr (.normal (transform (tree.getKey resultIndex)))

theorem getLowerKey_eq (env : CompareEnv α) (tree : TaggedTree d α) (key : JSTaggedValue α) :
    tree.getLowerKey env key =
      iter (neighbourStep .right env tree key) tree.fuel (tree.getRootEntries, -1) := by
  rw [getLowerKey]
  congr 1
  funext ⟨parentIndex, resultIndex⟩
  simp only [neighbourStep]
  cases tree.entryCompare env key (tree.getKey parentIndex) with
  | abrupt => rfl
  | normal res => cases res <;> rfl

theorem getHigherKey_eq (env : CompareEnv α) (tree : TaggedTree d α) (key : JSTaggedValue α) :
    tree.getHigherKey env key =
      iter (neighbourStep .left env tree key) tree.fuel (tree.getRootEntries, -1) := by
  rw [getHigherKey]
  congr 1
  funext ⟨parentIndex, resultIndex⟩
  simp only [neighbourStep]
  cases tree.entryCompare env key (tree.getKey parentIndex) with
  | abrupt => rfl
  | normal res => cases res <;> rfl

/-- Is the node one that the search for `key` leaves behind on its way to side `s`? -/
def behind (cmp : KeyCompare α) (s : Side) (key : JSTaggedValue α) (c : TreeCell α) : Bool :=
  cmp key c.key = .normal (hit s)

theorem behind_iff {s : Side} {key : JSTaggedValue α} {c : TreeCell α} :
    behind cmp s key c = true ↔ cmp key c.key = .normal (hit s) := decide_eq_true_iff

/-- The key of a node, `undefined` for none. -/
def keyOf : Option (TreeCell α) → JSTaggedValue α
  | none => .undefined
  | some c => c.key

/-- The index of a node, `-1` for none. -/
def indexOf : Option (TreeCell α) → Int
  | none => -1
  | some c => c.entry

section Search

variable {env : CompareEnv α} {K : JSTaggedValue α → Prop} {t : TaggedTree d α}
  {T : ColorTree (TreeCell α)} {key : JSTaggedValue α}

theorem neighbour_iter {fuel : Nat} (s : Side) (order : StrictOrderOn (t.entryCompare env) K) (hk : K key)
    (holds : Holds t.cells p S) (keys : ∀ c ∈ S.toList, K c.key) (best : Option (TreeCell α))
    (enough : S.toList.length < fuel) :
    iter (neighbourStep s env t key) fuel (rootOf S, indexOf best) =
      some (.normal (transform (t.getKey
        (indexOf (lastTaken s (behind (t.entryCompare env) s key) S best))))) := by
  induction S using join_induction s generalizing p fuel best with
  | empty =>
    obtain ⟨fuel, rfl⟩ : ∃ k, fuel = k + 1 := ⟨fuel - 1, by omega⟩
    exact iter_inr fuel rfl
  | node near red a far ihn ihf =>
    have size := size_join s near far red a
    obtain ⟨fuel, rfl⟩ : ∃ k, fuel = k + 1 := ⟨fuel - 1, by omega⟩
    have mem : a ∈ (join s near red a far).toList := mem_toList_join.mpr (.inr (.inl rfl))
    obtain ⟨res, compared⟩ := order.normal key a.key hk (keys a mem)
    obtain ⟨nearChild, farChild⟩ := childAt_join holds
    obtain ⟨-, holdsNear, holdsFar⟩ := holds_join.mp holds
    have nonneg : (0 : Int) ≤ a.entry := Int.natCast_nonneg _
    rw [lastTaken_join, rootOf_join]
    by_cases taken : res = hit s
    · have next : neighbourStep s env t key (a.entry, indexOf best) =
          .inl (rootOf near, indexOf (some a)) := by
        simp only [neighbourStep, if_pos nonneg, (holds.getKey mem).1, compared, if_pos taken, nearChild,
          indexOf]
      have yes : behind (t.entryCompare env) s key a = true := by
        rw [behind_iff, compared, taken]
      rw [iter_inl fuel next, if_pos yes]
      exact ihn holdsNear (fun c hc => keys c (mem_toList_join.mpr (.inl hc))) _ (by omega)
    · have next : neighbourStep s env t key (a.entry, indexOf best) =
          .inl (rootOf far, indexOf best) := by
        simp only [neighbourStep, if_pos nonneg, (holds.getKey mem).1, compared, if_neg taken, farChild]
      have no : ¬ behind (t.entryCompare env) s key a = true := by
        rw [behind_iff, compared]
        exact fun same => taken (Completion.normal.inj same)
      rw [iter_inl fuel next, if_neg no]
      exact ihf holdsFar (fun c hc => keys c (mem_toList_join.mpr (.inr (.inr hc)))) _ (by omega)

/-- Going to side `s`, what comes before a node left behind is left behind too. -/
theorem behind_closed (order : StrictOrderOn cmp K) (s : Side) (hk : K key) (keys : ∀ c ∈ T.toList, K c.key)
    (increasing : Increasing cmp T.toList) :
    (listTo s T).Pairwise fun a b => behind cmp s key b = true → behind cmp s key a = true := by
  cases s with
  | left =>
    refine List.pairwise_reverse.mpr (List.Pairwise.imp_of_mem ?_ increasing)
    intro a b ha hb less
    rw [behind_iff, behind_iff]
    exact fun first => order.trans _ _ _ hk (keys a ha) (keys b hb) first less
  | right =>
    refine List.Pairwise.imp_of_mem ?_ increasing
    intro a b ha hb less
    rw [behind_iff, behind_iff]
    intro last
    apply (order.great _ _ hk (keys a ha)).mpr
    exact order.trans _ _ _ (keys a ha) (keys b hb) hk less ((order.great _ _ hk (keys b hb)).mp last)

/-- Reading a node's key. -/
theorem transform_getKey (enc : Encodes t T) {c : Option (TreeCell α)} (mem : ∀ a ∈ c, a ∈ T.toList) :
    transform (t.getKey (indexOf c)) = keyOf c := by
  cases c with
  | none => rfl
  | some a =>
    obtain ⟨key, notHole⟩ := enc.holds.getKey (mem a rfl)
    rw [indexOf, key, keyOf, transform, if_neg (mt JSTaggedValue.isHole_eq_true.mp notHole)]

theorem neighbour_eq (s : Side) (search : SearchTree (t.entryCompare env) K t T)
    (order : StrictOrderOn (t.entryCompare env) K) (hk : K key) :
    iter (neighbourStep s env t key) t.fuel (t.getRootEntries, -1) = some (.normal (keyOf
      ((listTo s T).filter (behind (t.entryCompare env) s key)).getLast?)) := by
  have room := search.room
  have enough : T.toList.length < t.fuel := by
    rw [fuel]
    omega
  have run := neighbour_iter s order hk search.encodes.holds search.keys none enough
  rw [lastTaken_eq s _ T (behind_closed order s hk search.keys search.increasing), Option.or_none] at run
  rw [getRootEntries_eq, search.encodes.root]
  rw [indexOf] at run
  rw [run, transform_getKey search.encodes fun a last => ?_]
  exact mem_listTo.mp (List.mem_filter.mp (List.mem_of_getLast? last)).1

theorem outermost_eq (s : Side) (search : SearchTree (t.entryCompare env) K t T) :
    (outermost s t t.getRootEntries).map (fun entry => transform (t.getKey entry)) =
      some (keyOf (listTo s T).getLast?) := by
  have room := search.room
  have last : ∃ c, (listTo s T).getLast? = c ∧ outermost s t t.getRootEntries = some (indexOf c) := by
    rw [getRootEntries_eq, search.encodes.root]
    by_cases empty : T = .nil
    · subst empty
      refine ⟨none, by simp, iter_inr _ ?_⟩
      cases s <;> rfl
    · obtain ⟨ctx, red, m, far, whole, sides, run⟩ := outermost_iter s t.fuel search.encodes.holds empty
        (by rw [fuel]; omega)
      refine ⟨some m, ?_, run⟩
      rw [whole]
      apply getLast?_listTo_plug sides
      rw [listTo_join, listTo_nil, List.getLast?_concat]
  obtain ⟨c, last, run⟩ := last
  rw [run, last]
  refine congrArg some (transform_getKey search.encodes fun a mem => ?_)
  rw [Option.mem_def.mp mem] at last
  exact mem_listTo.mp (List.mem_of_getLast? last)

end Search

/-! ## The sorted entries -/

/-- The entries `es` in the slots from `aid` on. -/
def listEntries (sortArray : TaggedArray α) (aid : Int) : List Nat → TaggedArray α
  | [] => sortArray
  | e :: es => listEntries (sortArray.set aid (.int e)) (aid + 1) es

theorem listEntries_append (sortArray : TaggedArray α) (aid : Int) (es es' : List Nat) :
    listEntries sortArray aid (es ++ es') =
      listEntries (listEntries sortArray aid es) (aid + es.length) es' := by
  induction es generalizing sortArray aid with
  | nil => simp [listEntries]
  | cons e es ih =>
    have next : aid + 1 + es.length = aid + (e :: es).length := by
      rw [List.length_cons]
      omega
    rw [List.cons_append, listEntries, listEntries, ih, next]

theorem length_listEntries (sortArray : TaggedArray α) (aid : Int) (es : List Nat) :
    (listEntries sortArray aid es).length = sortArray.length := by
  induction es generalizing sortArray aid with
  | nil => rfl
  | cons e es ih => exact ih _ _

theorem get_listEntries_before (sortArray : TaggedArray α) {aid i : Int} (before : i < aid)
    (es : List Nat) : (listEntries sortArray aid es).get i = sortArray.get i := by
  induction es generalizing sortArray aid with
  | nil => rfl
  | cons e es ih =>
    rw [listEntries, ih _ (by omega), TaggedArray.get_set, if_neg (by omega)]

theorem get_listEntries (sortArray : TaggedArray α) (aid : Int) {es : List Nat} {i : Nat}
    (inside : i < es.length) : (listEntries sortArray aid es).get (aid + i) = .int es[i] := by
  induction es generalizing sortArray aid i with
  | nil => exact absurd inside (Nat.not_lt_zero i)
  | cons e es ih =>
    cases i with
    | zero =>
      rw [listEntries, get_listEntries_before _ (by omega), TaggedArray.get_set, if_pos (by simp)]
      rfl
    | succ i =>
      have slot : aid + ((i + 1 : Nat) : Int) = aid + 1 + i := by omega
      rw [listEntries, slot, ih _ _ (Nat.lt_of_succ_lt_succ inside)]
      rfl

section Entries

variable {t : TaggedTree d α} {T : ColorTree (TreeCell α)}

/-- From the root of a subtree on, the loop lists its entries and comes back to the stack. -/
theorem sort_iter (holds : Holds t.cells p S) (fuel : Nat) (sortArray : TaggedArray α) (aid : Int)
    (stack : List Int) :
    iter (sortStep t) (2 * S.toList.length + fuel) (sortArray, aid, stack, rootOf S) =
      iter (sortStep t) fuel
        (listEntries sortArray aid (entriesOf S), aid + S.toList.length, stack, -1) := by
  induction S generalizing p fuel sortArray aid stack with
  | nil => simp [entriesOf, toList, listEntries, rootOf]
  | node l red a r ihl ihr =>
    obtain ⟨leftChild, rightChild⟩ := childAt_node holds
    have nonneg : (0 : Int) ≤ a.entry := Int.natCast_nonneg _
    have down : ∀ arr i, sortStep t (arr, i, stack, a.entry) =
        .inl (arr, i, (a.entry : Int) :: stack, rootOf l) := by
      intro arr i
      simp only [sortStep, if_pos nonneg, leftChild]
    have up : ∀ arr i, sortStep t (arr, i, (a.entry : Int) :: stack, -1) =
        .inl (arr.set i (.int a.entry), i + 1, stack, rootOf r) := by
      intro arr i
      rw [← rightChild]
      rfl
    have rounds : 2 * (ColorTree.node l red a r).toList.length + fuel =
        2 * l.toList.length + ((2 * r.toList.length + fuel) + 1) + 1 := by
      simp only [toList, List.length_append, List.length_cons]
      omega
    have entries : entriesOf (.node l red a r) = entriesOf l ++ a.entry :: entriesOf r := by
      simp [entriesOf, toList]
    have count : (entriesOf l).length = l.toList.length := List.length_map _
    have total : aid + (ColorTree.node l red a r).toList.length =
        aid + l.toList.length + 1 + r.toList.length := by
      simp only [toList, List.length_append, List.length_cons]
      omega
    rw [rounds, rootOf, iter_inl _ (down sortArray aid), ihl holds.2.1, iter_inl _ (up _ _),
      ihr holds.2.2, entries, listEntries_append, listEntries, count, total]

theorem getSortArray_eq {K : JSTaggedValue α → Prop} (search : SearchTree cmp K t T) :
    t.getSortArray =
      some (listEntries (.newTaggedArray t.numberOfElements) 0 (entriesOf T)) := by
  have room := search.room
  have rounds : 2 * t.fuel = 2 * T.toList.length + ((2 * t.fuel - 2 * T.toList.length - 1) + 1) := by
    rw [fuel]
    omega
  rw [getSortArray, getRootEntries_eq, search.encodes.root, rounds, sort_iter search.encodes.holds]
  exact iter_inr _ rfl

end Entries

/-! ## The readers of a search tree -/

/-- `v` is the key of the stored entry with property `P` that is last in the order `before`,
    `undefined` if there is none. -/
def LastKey (t : TaggedTree d α) (before : JSTaggedValue α → JSTaggedValue α → Prop) (P : Int → Prop)
    (v : JSTaggedValue α) : Prop :=
  (v = .undefined ∧ ∀ e, Stored t e → ¬ P e) ∨
    ∃ e, Stored t e ∧ P e ∧ v = t.getKey e ∧
      ∀ e', Stored t e' → P e' → e' = e ∨ before (t.getKey e') (t.getKey e)

theorem lastKey_of_filter {K : JSTaggedValue α → Prop} {t : TaggedTree d α} {T : ColorTree (TreeCell α)}
    (search : SearchTree cmp K t T) {L : List (TreeCell α)}
    {before : JSTaggedValue α → JSTaggedValue α → Prop} {P : Int → Prop} {take : TreeCell α → Bool}
    (nodes : ∀ a, a ∈ L ↔ a ∈ T.toList) (sorted : L.Pairwise fun a b => before a.key b.key)
    (taken : ∀ a ∈ T.toList, take a = true ↔ P a.entry) :
    LastKey t before P (keyOf (L.filter take).getLast?) := by
  have key := fun a (mem : a ∈ T.toList) => (search.encodes.holds.getKey mem).1
  rcases (L.filter take).eq_nil_or_concat' with empty | ⟨front, last, whole⟩
  · rw [empty]
    refine .inl ⟨rfl, fun e stored => ?_⟩
    obtain ⟨a, mem, rfl⟩ := (stored_iff search.encodes).mp stored
    exact mt (taken a mem).mpr (List.filter_eq_nil_iff.mp empty a ((nodes a).mpr mem))
  · have chosen : ∀ a, a ∈ front ++ [last] ↔ a ∈ T.toList ∧ take a = true := by
      intro a
      rw [← whole, List.mem_filter, nodes]
    obtain ⟨mem, holds⟩ := (chosen last).mp (by simp)
    have sorted' := sorted.filter take
    rw [whole, List.pairwise_append] at sorted'
    rw [whole, List.getLast?_concat, keyOf]
    refine .inr ⟨last.entry, (stored_iff search.encodes).mpr ⟨last, mem, rfl⟩, (taken last mem).mp holds,
      (key last mem).symm, fun e stored property => ?_⟩
    obtain ⟨a, there, rfl⟩ := (stored_iff search.encodes).mp stored
    rcases List.mem_append.mp ((chosen a).mpr ⟨there, (taken a there).mpr property⟩) with early | same
    · rw [key a there, key last mem]
      exact .inr (sorted'.2.2 a early last (List.mem_singleton_self last))
    · exact .inl (by rw [List.mem_singleton.mp same])

/-- The entries in the order of their keys, each once. -/
structure Sorted (cmp : KeyCompare α) (t : TaggedTree d α) (sortArray : TaggedArray α) (es : List Nat) :
    Prop where
  length : sortArray.length = es.length
  get : ∀ i, ∀ inside : i < es.length, sortArray.get i = .int es[i]
  once : es.Nodup
  all : ∀ e : Int, Stored t e ↔ ∃ e' ∈ es, e = (e' : Nat)
  increasing : es.Pairwise fun e e' : Nat => cmp (t.getKey e) (t.getKey e') = .normal .less

/-- What the readers of a tree say of it and of a key. -/
structure ReadsInOrder (env : CompareEnv α) (t : TaggedTree d α) (key : JSTaggedValue α)
    (less : JSTaggedValue α → JSTaggedValue α → Prop) : Prop where
  lowerKey : ∃ v, t.getLowerKey env key = some (.normal v) ∧
    LastKey t less (fun e => less (t.getKey e) key) v
  higherKey : ∃ v, t.getHigherKey env key = some (.normal v) ∧
    LastKey t (fun x y => less y x) (fun e => less key (t.getKey e)) v
  firstKey : ∃ v, t.getFirstKey = some v ∧ LastKey t (fun x y => less y x) (fun _ => True) v
  lastKey : ∃ v, t.getLastKey = some v ∧ LastKey t less (fun _ => True) v
  sortArray : ∃ sortArray es, t.getSortArray = some sortArray ∧
    Sorted (t.entryCompare env) t sortArray es

theorem taggedTree_reads_in_order (env : CompareEnv α) (K : JSTaggedValue α → Prop) (t : TaggedTree d α)
    (T : ColorTree (TreeCell α)) (order : StrictOrderOn (t.entryCompare env) K)
    (search : SearchTree (t.entryCompare env) K t T) (key : JSTaggedValue α) (hk : K key) :
    ReadsInOrder env t key fun x y => t.entryCompare env x y = .normal .less := by
  have keyOfNode := fun a (mem : a ∈ T.toList) => (search.encodes.holds.getKey mem).1
  have reversed : (listTo .left T).Pairwise fun a b => t.entryCompare env b.key a.key = .normal .less :=
    List.pairwise_reverse.mpr search.increasing
  have everything : ∀ L : List (TreeCell α), L.filter (fun _ => true) = L := fun L => List.filter_true L
  constructor
  case lowerKey =>
    refine ⟨_, (getLowerKey_eq env t key).trans (neighbour_eq .right search order hk), ?_⟩
    refine lastKey_of_filter search (fun _ => mem_listTo) search.increasing fun a mem => ?_
    rw [behind_iff, keyOfNode a mem]
    exact order.great _ _ hk (search.keys a mem)
  case higherKey =>
    refine ⟨_, (getHigherKey_eq env t key).trans (neighbour_eq .left search order hk), ?_⟩
    refine lastKey_of_filter search (fun _ => mem_listTo) reversed fun a mem => ?_
    rw [behind_iff, keyOfNode a mem]
    rfl
  case firstKey =>
    refine ⟨_, outermost_eq .left search, ?_⟩
    rw [← everything (listTo .left T)]
    exact lastKey_of_filter search (fun _ => mem_listTo) reversed fun _ _ => by simp
  case lastKey =>
    refine ⟨_, outermost_eq .right search, ?_⟩
    rw [← everything (listTo .right T)]
    exact lastKey_of_filter search (fun _ => mem_listTo) search.increasing fun _ _ => by simp
  case sortArray =>
    have count : (entriesOf T).length = T.toList.length := List.length_map _
    refine ⟨_, entriesOf T, getSortArray_eq search, ?_, ?_, search.encodes.distinct, ?_, ?_⟩
    · rw [length_listEntries, count]
      exact search.elements
    · intro i inside
      have slot := get_listEntries (.newTaggedArray t.numberOfElements : TaggedArray α) 0 inside
      rwa [Int.zero_add] at slot
    · intro e
      rw [stored_iff search.encodes]
      simp [entriesOf]
    · refine List.pairwise_map.mpr (List.Pairwise.imp_of_mem ?_ search.increasing)
      intro a b ha hb less
      rwa [keyOfNode a ha, keyOfNode b hb]

/-- The tree that a run leaves. -/
theorem taggedTree_reads_in_order_three :
    ∃ t : TaggedTree .map Unit, run (TreeOp.step (numberEnv Unit)) (create .map Unit 7)
        [.insert (.int 2) (.int 0), .insert (.int 1) (.int 0), .insert (.int 3) (.int 0)] = some t ∧
      ReadsInOrder (numberEnv Unit) t (.int 2) fun x y =>
        t.entryCompare (numberEnv Unit) x y = .normal .less := by
  obtain ⟨t, reached, T, ordered⟩ := ordered_of_run (d := .map) (numberEnv Unit) IsInt numberEnv_order
    (by rintro _ ⟨i, rfl⟩; simp) 7
    [.insert (.int 2) (.int 0), .insert (.int 1) (.int 0), .insert (.int 3) (.int 0)]
    (by simp [TreeOp.Uses, IsInt]) (by decide +kernel)
  refine ⟨t, reached, taggedTree_reads_in_order (numberEnv Unit) IsInt t T ?_ ordered.searchTree _ ⟨2, rfl⟩⟩
  rw [ordered.entryCompare_eq]
  exact (compareBy_hole (numberEnv Unit) ▸ numberEnv_order).strict

end ArkRuntime
