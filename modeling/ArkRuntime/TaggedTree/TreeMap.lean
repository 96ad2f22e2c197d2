import ArkRuntime.TaggedTree.Comparator

/-!
# Tree maps
-/

/-!
## The empty tree map

In a table the root slot is `-1` exactly where there are no elements, so the readers of an empty map
stop at once. A map leaves this state of affairs only when its last entry is deleted from a table of
capacity 31 or more. `Clear` of a map with that many elements makes such a table.
-/

namespace ArkRuntime

open ColorTree TaggedTree

variable {d : TreeDerived} {α : Type}

/-- The root slot tells whether the tree is empty. -/
theorem root_iff_of_table {t : TaggedTree d α} {T : ColorTree (TreeCell α)} (table : Table t T) :
    t.getRootEntries = -1 ↔ t.numberOfElements = 0 := by
  have size := table.storage.elements
  rw [getRootEntries_eq, table.encodes.root, numberOfElements_eq, size]
  cases T with
  | nil => simp [rootOf, entriesOf, toList]
  | node l red a r =>
    simp only [rootOf, entriesOf, toList, List.length_map, List.length_append, List.length_cons]
    omega

/-- The readers of a map answer for an empty map without looking at an entry or comparing a key. -/
structure ReadsEmpty (map : TaggedTree .map α) : Prop where
  sortArray : map.getSortArray = some (.newTaggedArray 0)
  hasValue : ∀ sameValue value, map.hasValue sameValue value = some false
  lowerKey : ∀ env key, map.getLowerKey env key = some (.normal .undefined)
  higherKey : ∀ env key, map.getHigherKey env key = some (.normal .undefined)

theorem readsEmpty_of_root {map : TaggedTree .map α} (root : map.getRootEntries = -1)
    (empty : map.numberOfElements = 0) : ReadsEmpty map := by
  obtain ⟨fuel, enough⟩ : ∃ k, map.fuel = k + 1 := ⟨map.capacity.toNat, rfl⟩
  constructor
  · rw [getSortArray, root, empty, enough, show 2 * (fuel + 1) = 2 * fuel + 1 + 1 by omega]
    exact iter_inr _ rfl
  · intro sameValue value
    rw [TaggedTree.hasValue, root]
    rfl
  · intro env key
    rw [getLowerKey, root, enough]
    exact iter_inr _ rfl
  · intro env key
    rw [getHigherKey, root, enough]
    exact iter_inr _ rfl

instance (env : CompareEnv α) (map : TaggedTree .map α) (op : TreeMapOp α) :
    Decidable (op.KeepsRoot env map) :=
  match op with
  | .set _ _ => isTrue trivial
  | .delete key => inferInstanceAs (Decidable (HasKey env map key → _))
  | .replace _ _ => isTrue trivial
  | .clear => isTrue trivial

/-- In every run that never deletes the last entry of a table of capacity 31 or more, the root slot
    is `-1` exactly while the map is empty. -/
theorem treeMap_root_of_run (env : CompareEnv α) (compareFn : Option (JSTaggedValue α))
    (ops : List (TreeMapOp α))
    (allowed : Allowed (TreeMapOp.step env) (fun map op => op.KeepsRoot env map)
      (construct .map compareFn) ops) :
    ∃ map, run (TreeMapOp.step env) (construct .map compareFn) ops = some map ∧
      (map.getRootEntries = -1 ↔ map.numberOfElements = 0) ∧
      (map.numberOfElements = 0 → ReadsEmpty map) := by
  obtain ⟨map, reached, T, table⟩ := run_invariant
    (I := fun map : TaggedTree .map α => ∃ T, Table map T)
    (fun map op inv ok => by
      obtain ⟨T, table⟩ := inv
      exact op.step_table table ok)
    ops _ ⟨.nil, construct_table compareFn⟩ allowed
  have root := root_iff_of_table table
  exact ⟨map, reached, root, fun empty => readsEmpty_of_root (root.mpr empty) empty⟩

theorem treeMap_root_of_run_delete :
    ∃ map, run (TreeMapOp.step (numberEnv Unit)) (construct .map none)
        [.set (.int 1) (.int 5), .delete (.int 1), .clear] = some map ∧
      (map.getRootEntries = -1 ↔ map.numberOfElements = 0) ∧
      (map.numberOfElements = 0 → ReadsEmpty map) :=
  treeMap_root_of_run (numberEnv Unit) none _ (by decide +kernel)

/-- 31 insertions and `clear`, then one insertion and its deletion. -/
def clearedAtThirtyOne : List (TreeMapOp Unit) :=
  (List.range 31).map (fun i : Nat => .set (.int i) (.int 0)) ++
    [.clear, .set (.int 1) (.int 5), .delete (.int 1)]

/-- The map is empty, but its root is entry 0, and it reports to have the value 0. -/
theorem treeMap_root_fails_after_clear :
    ∃ map, run (TreeMapOp.step (numberEnv Unit)) (construct .map none) clearedAtThirtyOne = some map ∧
      ¬ (map.getRootEntries = -1 ↔ map.numberOfElements = 0) ∧ map.numberOfElements = 0 ∧
      map.hasValue (fun x y => decide (x = y)) (.int 0) = some true ∧ ¬ ReadsEmpty map := by
  have state : (run (TreeMapOp.step (numberEnv Unit)) (construct .map none) clearedAtThirtyOne).map
      (fun map => (map.getRootEntries, map.numberOfElements,
        map.hasValue (fun x y => decide (x = y)) (.int 0))) = some (0, 0, some true) := by
    decide +kernel
  obtain ⟨map, reached, header⟩ := Option.map_eq_some_iff.mp state
  simp only [Prod.mk.injEq] at header
  obtain ⟨root, elements, reports⟩ := header
  refine ⟨map, reached, by rw [root, elements]; decide, elements, reports, fun reads => ?_⟩
  rw [reads.hasValue] at reports
  simp at reports

end ArkRuntime

/-!
## A tree map is a map

Along every run of a tree map, `Get` of a key gives the value of the last `Set` or `Replace` of that
key since it was last deleted or the map was cleared. Two things must not happen on the way. A `Set`
of a key that is there must not meet a full array: the new value is written to a table that is then
dropped. And a comparator must not be lost, since the tree is then searched by another order.
-/

namespace ArkRuntime

open ColorTree TaggedTree

variable {α : Type}

/-- What one operation does to the value under key `k`. -/
def TreeMapOp.effect [DecidableEq α] (k : JSTaggedValue α) (current : Option (JSTaggedValue α)) :
    TreeMapOp α → Option (JSTaggedValue α)
  | .set key value => if key = k then some value else current
  | .delete key => if key = k then none else current
  | .replace key value => if key = k then current.map fun _ => value else current
  | .clear => none

/-- The value of the last `Set` or `Replace` of `k` that no `Delete` of `k` and no `Clear` follows. -/
def lastValue [DecidableEq α] (k : JSTaggedValue α) (ops : List (TreeMapOp α)) :
    Option (JSTaggedValue α) :=
  ops.foldl (TreeMapOp.effect k) none

def TreeMapOp.UsesKey (K : JSTaggedValue α → Prop) : TreeMapOp α → Prop
  | .set key _ => K key
  | .delete key => K key
  | .replace key _ => K key
  | .clear => True

/-- The operation does not lose the comparator `fn`, nor a value. -/
def TreeMapOp.TakesEffect (env : CompareEnv α) (fn : JSTaggedValue α) (map : TaggedTree .map α)
    (op : TreeMapOp α) : Prop :=
  (fn = .hole ∨ op.KeepsComparator env map) ∧
  match op with
  | .set key _ => HasKey env map key → ¬ Full map
  | _ => True

instance [DecidableEq α] (env : CompareEnv α) (fn : JSTaggedValue α) (map : TaggedTree .map α)
    (op : TreeMapOp α) : Decidable (op.TakesEffect env fn map) :=
  match op with
  | .set key _ => inferInstanceAs (Decidable ((_ ∨ TreeMapOp.KeepsComparator env map _) ∧
      (HasKey env map key → _)))
  | .delete _ | .replace _ _ | .clear =>
    inferInstanceAs (Decidable ((_ ∨ TreeMapOp.KeepsComparator env map _) ∧ True))

/-- The map `m` is what the table holds; the table of an emptied map may be hollow. -/
inductive Represents (env : CompareEnv α) (fn : JSTaggedValue α) (K : JSTaggedValue α → Prop)
    (map : TaggedTree .map α) (m : JSTaggedValue α → Option (JSTaggedValue α)) : Prop
  | ordered {T : ColorTree (TreeCell α)} : Ordered env fn K map T →
      (∀ k v, m k = some v ↔ (k, v) ∈ items T) → Represents env fn K map m
  | hollow : Hollow map → fn = .hole → map.getCompare = fn → (∀ k, m k = none) →
      Represents env fn K map m

section HollowMap

variable {env : CompareEnv α} {map : TaggedTree .map α} {key : JSTaggedValue α}

theorem findEntry_hollow (h : Hollow map) : map.findEntry env key = some (.normal (-1)) := by
  rw [TaggedTree.findEntry, getRootEntries_eq, h.root]
  refine iter_inr _ ?_
  have : map.getKey 0 = .hole := by
    rw [show (0 : Int) = (0 : Nat) from rfl, getKey_natCast]
    exact h.key
  simp [findEntryStep, this]

theorem getRootKey_hollow (h : Hollow map) : map.getRootKey.isHole = true := by
  rw [TaggedTree.getRootKey, getRootEntries_eq, h.root, show (0 : Int) = (0 : Nat) from rfl,
    getKey_natCast, h.key]
  rfl

end HollowMap

section Steps

variable {env : CompareEnv α} {fn : JSTaggedValue α} {K : JSTaggedValue α → Prop}
  {map : TaggedTree .map α} {m : JSTaggedValue α → Option (JSTaggedValue α)}
  {key value : JSTaggedValue α}

/-- What the search for a key finds, and what the map holds there. -/
theorem Ordered.find {T : ColorTree (TreeCell α)} (h : Ordered env fn K map T)
    (mem : ∀ k v, m k = some v ↔ (k, v) ∈ items T) (order : TotalOrderOn (compareBy env fn) K) (hk : K key) :
    (map.findEntry env key = some (.normal (-1)) ∧ m key = none) ∨
      ∃ ctx l red a r, T = plug ctx (.node l red a r) ∧ a.key = key ∧ m key = some a.value ∧
        map.findEntry env key = some (.normal a.entry) := by
  have find := findEntry_table h.table env key
  have present := h.hasKey_iff order hk
  rw [ArkRuntime.hasKey_iff h.table] at present
  rw [h.entryCompare_eq] at find present
  obtain ⟨⟨ctx, S⟩, found⟩ := Option.isSome_iff_exists.mp (order.search_isSome hk [] h.keys)
  rw [found] at find present
  cases S with
  | nil =>
    refine .inl ⟨find, Option.eq_none_iff_forall_ne_some.mpr fun v value => ?_⟩
    obtain ⟨ctx', l, red, a, r, absurd⟩ := present.mpr ⟨v, (mem key v).mp value⟩
    simp at absurd
  | node l red a r =>
    obtain ⟨rfl, sameKey⟩ := order.key_of_found hk h.keys found
    refine .inr ⟨ctx, l, red, a, r, rfl, sameKey, (mem key a.value).mpr ?_, find⟩
    rw [items, toList_plug_node, ← sameKey]
    simp [TreeCell.data]

/-- `Get` reads the map. -/
theorem Represents.get (rep : Represents env fn K map m) (order : TotalOrderOn (compareBy env fn) K)
    (hk : K key) : JSAPITreeMap.get env map key = some (.normal ((m key).getD .undefined)) := by
  cases rep with
  | hollow h _ _ none =>
    rw [JSAPITreeMap.get, findEntry_hollow h, none]
    rfl
  | @ordered T h mem =>
    obtain ⟨find, none⟩ | ⟨ctx, l, red, a, r, rfl, -, value, find⟩ := h.find mem order hk
    · rw [JSAPITreeMap.get, find, none]
      rfl
    · obtain ⟨-, ⟨here, -⟩, -, -⟩ := holds_plug.mp h.table.encodes.holds
      have entry : ¬ (a.entry : Int) = -1 := by omega
      have read : map.getValue a.entry = a.value := by rw [getValue_natCast, here, value_nodeRec]
      rw [JSAPITreeMap.get, find]
      simp only [Option.bind_eq_bind, Option.bind_some, if_neg entry, read, value, Option.getD_some]

variable [DecidableEq α]

theorem Represents.set (rep : Represents env fn K map m) (order : TotalOrderOn (compareBy env fn) K)
    (notHole : ∀ k, K k → k ≠ .hole) (hk : K key)
    (ok : (TreeMapOp.set key value).TakesEffect env fn map) :
    ∃ map', (TreeMapOp.set key value).step env map = some map' ∧
      Represents env fn K map' fun k => TreeMapOp.effect k (m k) (.set key value) := by
  have present : ¬ key.isHole = true := fun h => notHole key hk (JSTaggedValue.isHole_eq_true.mp h)
  simp only [TreeMapOp.step, JSAPITreeMap.set, if_neg present]
  cases rep with
  | hollow h noFn compare none =>
    obtain ⟨map', run, table, same⟩ := insert_empty env h.storage (getRootKey_hollow h)
      (notHole key hk) (by simp)
    refine ⟨map', by rw [run]; rfl, .ordered ⟨table, ?_, ?_, ?_⟩ ?_⟩
    · rw [getCompare_eq, same]
      exact compare
    · simpa [toList] using hk
    · simp [Increasing, toList]
    · intro k v
      simp only [TreeMapOp.effect, none, items, toList, List.nil_append, List.map_cons, List.map_nil,
        TreeCell.data, List.mem_singleton, Prod.mk.injEq]
      split_ifs with same
      · simp [same, eq_comm]
      · simp [Ne.symm same]
  | @ordered T h mem =>
    have kept : ¬ HasKey env map key → Compacts map → fn = .hole := by
      intro absent lost
      refine ok.1.resolve_right fun keeps => keeps ⟨?_, lost⟩
      -- a total order does not throw, so the search ends without the key
      obtain ⟨⟨ctx, S⟩, found⟩ := Option.isSome_iff_exists.mp (order.search_isSome hk [] h.keys)
      rw [hasKey_iff h.table, h.entryCompare_eq, found] at absent
      rw [LacksKey, findEntry_table h.table, h.entryCompare_eq, found]
      cases S with
      | nil => rfl
      | node l red a r => exact absurd ⟨ctx, l, red, a, r, rfl⟩ absent
    obtain ⟨map', run, -, other⟩ := h.insert order hk (notHole key hk) (by simp) kept
    obtain ⟨T', h', mem'⟩ := other fun lost => ok.2 lost.1 lost.2
    refine ⟨map', by rw [run]; rfl, .ordered h' fun k v => ?_⟩
    rw [mem']
    simp only [TreeMapOp.effect]
    split_ifs with same
    · simp [same, eq_comm]
    · simp [Ne.symm same, mem]

theorem Represents.delete (rep : Represents env fn K map m) (order : TotalOrderOn (compareBy env fn) K)
    (hk : K key) (ok : (TreeMapOp.delete key).TakesEffect env fn map) :
    ∃ map', (TreeMapOp.delete key).step env map = some map' ∧
      Represents env fn K map' fun k => TreeMapOp.effect k (m k) (.delete key) := by
  rw [mapDelete_eq]
  cases rep with
  | hollow h noFn compare none =>
    refine ⟨map, by rw [deleteKey, findEntry_hollow h]; rfl, .hollow h noFn compare fun k => ?_⟩
    simp [TreeMapOp.effect, none]
  | @ordered T h mem =>
    by_cases last : HasKey env map key ∧ ShrinksAfterRemove map ∧ map.hdr.elements = 1
    · -- the last node goes, and the table is shrunk to a hollow one
      obtain ⟨here, small, one⟩ := last
      have noFn : fn = .hole := ok.1.resolve_right fun keeps => keeps ⟨here, small⟩
      obtain ⟨ctx, l, red, a, r, found⟩ := (hasKey_iff h.table env key).mp here
      rw [deleteKey_eq h.table, found]
      rw [h.entryCompare_eq] at found
      obtain ⟨rfl, sameKey⟩ := order.key_of_found hk h.keys found
      obtain ⟨map', run, hollow, compare⟩ := delete_hollow h.table small one
      refine ⟨map', run, .hollow hollow noFn (by rw [getCompare_eq, compare, noFn]) fun k => ?_⟩
      simp only [TreeMapOp.effect]
      split_ifs with same
      · rfl
      · cases value : m k with
        | none => rfl
        | some v =>
          have size := h.table.storage.elements
          rw [one, entriesOf, List.length_map, toList_plug_node] at size
          have there := (mem k v).mp value
          rw [items, toList_plug_node] at there
          simp only [List.length_append, List.length_cons] at size
          have none : labelsBefore ctx = [] ∧ l.toList = [] ∧ r.toList = [] ∧ labelsAfter ctx = [] := by
            simp only [← List.length_eq_zero_iff]
            omega
          simp only [none, List.append_nil, List.nil_append, List.map_cons, List.map_nil,
            List.mem_singleton, TreeCell.data, Prod.mk.injEq] at there
          exact absurd (sameKey.symm.trans there.1.symm) same
    · obtain ⟨map', T', run, h', mem'⟩ := h.delete order hk fun here small =>
        ⟨ok.1.resolve_right fun keeps => keeps ⟨here, small⟩, fun one => last ⟨here, small, one⟩⟩
      refine ⟨map', run, .ordered h' fun k v => ?_⟩
      rw [mem']
      simp only [TreeMapOp.effect]
      split_ifs with same
      · simp [same]
      · simp [Ne.symm same, mem]

theorem Represents.replace (rep : Represents env fn K map m)
    (order : TotalOrderOn (compareBy env fn) K) (hk : K key) :
    ∃ map', (TreeMapOp.replace key value).step env map = some map' ∧
      Represents env fn K map' fun k => TreeMapOp.effect k (m k) (.replace key value) := by
  cases rep with
  | hollow h noFn compare none =>
    refine ⟨map, ?_, .hollow h noFn compare fun k => ?_⟩
    · rw [TreeMapOp.step, JSAPITreeMap.replace, findEntry_hollow h]
      rfl
    · simp [TreeMapOp.effect, none]
  | @ordered T h mem =>
    rw [TreeMapOp.step, JSAPITreeMap.replace]
    obtain ⟨find, none⟩ | ⟨ctx, l, red, a, r, rfl, sameKey, there, find⟩ := h.find mem order hk
    · rw [find]
      refine ⟨map, rfl, .ordered h fun k v => ?_⟩
      rw [← mem]
      simp only [TreeMapOp.effect]
      split_ifs with same
      · simp [← same, none]
      · rfl
    · have nonneg : ¬ ((a.entry : Int) < 0) := by omega
      have table' := setValue_table h.table (by simp : TreeDerived.map = .set → value ≠ .hole)
      obtain ⟨h', mem'⟩ := h.relabel order sameKey (by simp) table' (by
          rw [getCompare_eq, hdr_setValue]
          exact h.compare)
      rw [find]
      refine ⟨map.setValue a.entry value, ?_, .ordered h' fun k v => ?_⟩
      · simp only [Option.bind_eq_bind, Option.bind_some, if_neg nonneg]
        rfl
      · rw [mem']
        simp only [TreeMapOp.effect]
        split_ifs with same
        · simp [← same, there, eq_comm]
        · simp [Ne.symm same, mem]

omit [DecidableEq α] in
theorem Represents.clear (rep : Represents env fn K map m)
    (ok : (TreeMapOp.clear : TreeMapOp α).TakesEffect env fn map) :
    Represents env fn K (JSAPITreeMap.clear map) fun _ => none := by
  by_cases empty : map.numberOfElements = 0
  · have same : JSAPITreeMap.clear map = map := if_pos empty
    rw [same]
    cases rep with
    | hollow h noFn compare none => exact .hollow h noFn compare fun _ => rfl
    | @ordered T h mem =>
      refine .ordered h fun k v => ?_
      have size := h.table.storage.elements
      rw [← numberOfElements_eq, empty, entriesOf, List.length_map] at size
      have none : T.toList = [] := List.length_eq_zero_iff.mp (by omega)
      simp [items, none]
  · have fresh : JSAPITreeMap.clear map = _ := if_neg empty
    rw [fresh]
    have noFn : fn = .hole := ok.1.resolve_right empty
    refine .ordered (T := .nil) ⟨create_table _, by rw [noFn]; rfl, by simp [toList],
      by simp [Increasing, toList]⟩ fun k v => by simp [items, toList]

end Steps

/-- A new map is empty. -/
theorem represents_construct (env : CompareEnv α) (compareFn : Option (JSTaggedValue α))
    (K : JSTaggedValue α → Prop) :
    Represents env (compareFn.getD .hole) K (construct .map compareFn) fun _ => none := by
  have compare : (construct .map compareFn).getCompare = compareFn.getD .hole := by
    cases compareFn <;> rfl
  exact .ordered (T := .nil) ⟨construct_table compareFn, compare, by simp [toList],
    by simp [Increasing, toList]⟩ fun k v => by simp [items, toList]

/-- Every run whose operations lose neither the comparator nor a value keeps the last values. -/
theorem represents_of_run [DecidableEq α] (env : CompareEnv α)
    (compareFn : Option (JSTaggedValue α)) (K : JSTaggedValue α → Prop)
    (order : TotalOrderOn (compareBy env (compareFn.getD .hole)) K) (notHole : ∀ k, K k → k ≠ .hole)
    (ops : List (TreeMapOp α)) (uses : ∀ op ∈ ops, op.UsesKey K)
    (allowed : Allowed (TreeMapOp.step env)
      (fun map op => op.TakesEffect env (compareFn.getD .hole) map) (construct .map compareFn) ops) :
    ∃ map, run (TreeMapOp.step env) (construct .map compareFn) ops = some map ∧
      Represents env (compareFn.getD .hole) K map fun k => lastValue k ops := by
  obtain ⟨map, reached, rep⟩ := run_refines (R := Represents env (compareFn.getD .hole) K)
    (f := fun m op => fun k => op.effect k (m k))
    (fun map m op rep ok => by
      obtain ⟨uses, effect⟩ := ok
      cases op with
      | set key value => exact rep.set order notHole uses effect
      | delete key => exact rep.delete order uses effect
      | replace key value => exact rep.replace order uses
      | clear => exact ⟨_, rfl, rep.clear effect⟩)
    ops _ _ (represents_construct env compareFn K) (allowed.and_forall uses)
  have pointwise : ∀ (ops : List (TreeMapOp α)) (m : JSTaggedValue α → Option (JSTaggedValue α)),
      ops.foldl (fun m op => fun k => op.effect k (m k)) m =
        fun k => ops.foldl (TreeMapOp.effect k) (m k) := by
    intro ops
    induction ops with
    | nil => intro m; rfl
    | cons op ops ih => intro m; exact ih _
  rw [pointwise] at rep
  exact ⟨map, reached, rep⟩

/-- Seven entries fill the first table; then the first key is set again. -/
def setInFullTable : List (TreeMapOp Unit) :=
  (List.range 7).map (fun i : Nat => .set (.int i) (.int 5)) ++ [.set (.int 0) (.int 9)]

end ArkRuntime
