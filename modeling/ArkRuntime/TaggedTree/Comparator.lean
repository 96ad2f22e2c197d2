import ArkRuntime.TaggedTree.Steps

/-!
# The comparator of a container

`AdjustTaggedTree` copies the comparator when it extends the array, and not when it compacts the
tree; `Clear` makes a table without one. So the comparator installed by the constructor stays in
place in every run whose operations neither compact the table nor clear it.
-/

namespace ArkRuntime

open ColorTree TaggedTree

variable {α : Type}

/-! ## The operations of a tree set -/

section Set

variable {set : TaggedTree .set α} {T : ColorTree (TreeCell α)} {env : CompareEnv α}
  {key value : JSTaggedValue α}

theorem setDelete_eq : TreeSetOp.step env set (.delete key) = deleteKey env set key := by
  simp only [TreeSetOp.step, JSAPITreeSet.delete, deleteKey]
  cases set.findEntry env key with
  | none => rfl
  | some found =>
    cases found with
    | abrupt => rfl
    | normal entry =>
      simp only [Option.bind_eq_bind, Option.bind_some]
      split_ifs
      · rfl
      · cases set.delete entry <;> rfl

/-- `PopFirst` and `PopLast` remove an outermost node, if there is one. -/
theorem pop_keeps (s : Side) (table : Table set T) (kept : set.numberOfElements = 1 → set.capacity < 31) :
    ∃ set', (JSAPITreeSet.pop set (outermost s)).map Prod.snd = some set' ∧ (∃ T', Table set' T') ∧
      (set'.getCompare = set.getCompare ∨ set.numberOfElements ≠ 0 ∧ ShrinksAfterRemove set) := by
  obtain ⟨fuel, enough⟩ : ∃ k, set.fuel = k + 1 := ⟨set.capacity.toNat, rfl⟩
  have size := table.storage.elements
  by_cases empty : T = .nil
  · subst empty
    refine ⟨set, ?_, ⟨.nil, table⟩, .inl rfl⟩
    have none : outermost s set set.getRootEntries = some (-1) := by
      rw [outermost, getRootEntries_eq, table.encodes.root, enough]
      exact iter_inr fuel (by cases s <;> rfl)
    simp only [JSAPITreeSet.pop, none, Option.bind_eq_bind, Option.bind_some]
    rfl
  · have room := table.length_le
    obtain ⟨ctx, c, m, r, whole, -, found⟩ := outermost_iter s set.fuel table.encodes.holds empty
      (by simp only [TaggedTree.fuel, capacity_eq]; omega)
    obtain ⟨l', red', a, r', node⟩ : ∃ l' red' a r', join s .nil c m r = .node l' red' a r' ∧ a = m := by
      cases s
      · exact ⟨_, _, _, _, rfl, rfl⟩
      · exact ⟨_, _, _, _, rfl, rfl⟩
    obtain ⟨node, rfl⟩ := node
    rw [node] at whole
    subst whole
    obtain ⟨set', run, table', compare⟩ := removeNode_keeps table kept
    refine ⟨set', ?_, table', compare.imp_right fun small => ⟨?_, small⟩⟩
    · have entry : outermost s set set.getRootEntries = some (a.entry : Int) := by
        rw [getRootEntries_eq, table.encodes.root]
        exact found
      have nonneg : ¬ ((a.entry : Int) < 0) := by omega
      simp only [JSAPITreeSet.pop, entry, Option.bind_eq_bind, Option.bind_some, if_neg nonneg, run]
      rfl
    · rw [numberOfElements_eq, size]
      have := length_toList_pos empty
      simp only [entriesOf, List.length_map]
      omega

end Set

/-! ## What keeps the comparator -/

/-- A deletion with a `Shrink` comes before the last entry is out of a large table. -/
theorem kept_of_not_shrinks {d : TreeDerived} {t : TaggedTree d α} (large : ¬ ShrinksAfterRemove t)
    (last : t.numberOfElements = 1) : t.capacity < 31 := by
  simp only [ShrinksAfterRemove, numberOfElements_eq, capacity_eq] at *
  omega

/-- The operation neither compacts the table of the map nor makes a new one. -/
def TreeMapOp.KeepsComparator (env : CompareEnv α) (map : TaggedTree .map α) : TreeMapOp α → Prop
  | .set key _ => ¬ (LacksKey env map key ∧ Compacts map)
  | .delete key => ¬ (HasKey env map key ∧ ShrinksAfterRemove map)
  | .replace _ _ => True
  | .clear => map.numberOfElements = 0

/-- The operation neither compacts the table of the set nor makes a new one. -/
def TreeSetOp.KeepsComparator (env : CompareEnv α) (set : TaggedTree .set α) : TreeSetOp α → Prop
  | .add value => ¬ (LacksKey env set value ∧ Compacts set)
  | .delete key => ¬ (HasKey env set key ∧ ShrinksAfterRemove set)
  | .clear => False
  | .popFirst => ¬ (set.numberOfElements ≠ 0 ∧ ShrinksAfterRemove set)
  | .popLast => ¬ (set.numberOfElements ≠ 0 ∧ ShrinksAfterRemove set)

instance (env : CompareEnv α) (map : TaggedTree .map α) (op : TreeMapOp α) :
    Decidable (op.KeepsComparator env map) :=
  match op with
  | .set key _ => inferInstanceAs (Decidable (¬ (LacksKey env map key ∧ _)))
  | .delete key => inferInstanceAs (Decidable (¬ (HasKey env map key ∧ _)))
  | .replace _ _ => isTrue trivial
  | .clear => inferInstanceAs (Decidable (map.numberOfElements = 0))

instance (env : CompareEnv α) (set : TaggedTree .set α) (op : TreeSetOp α) :
    Decidable (op.KeepsComparator env set) :=
  match op with
  | .add value => inferInstanceAs (Decidable (¬ (LacksKey env set value ∧ _)))
  | .delete key => inferInstanceAs (Decidable (¬ (HasKey env set key ∧ _)))
  | .clear => isFalse id
  | .popFirst => inferInstanceAs (Decidable (¬ (_ ∧ _)))
  | .popLast => inferInstanceAs (Decidable (¬ (_ ∧ _)))

section Steps

variable {env : CompareEnv α} {T : ColorTree (TreeCell α)}

theorem TreeMapOp.step_compare {map : TaggedTree .map α} (table : Table map T) (op : TreeMapOp α)
    (keeps : op.KeepsComparator env map) :
    ∃ map', op.step env map = some map' ∧ (∃ T', Table map' T') ∧
      map'.getCompare = map.getCompare := by
  cases op with
  | set key value =>
    simp only [step, JSAPITreeMap.set]
    by_cases hole : key.isHole = true
    · simp only [if_pos hole]
      exact ⟨map, rfl, ⟨T, table⟩, rfl⟩
    · simp only [if_neg hole]
      obtain ⟨map', run, table', compare⟩ := insert_keeps table env
        (fun h => hole (JSTaggedValue.isHole_eq_true.mpr h)) (by simp)
      exact ⟨map', run, table', compare.resolve_right keeps⟩
  | delete key =>
    obtain ⟨map', run, table', compare⟩ := deleteKey_keeps table fun here =>
      kept_of_not_shrinks fun small => keeps ⟨here, small⟩
    exact ⟨map', by rw [mapDelete_eq, run], table', compare.resolve_right keeps⟩
  | replace key value => exact replace_keeps table env key value
  | clear =>
    have same := (mapClear_keeps table).2 keeps
    exact ⟨map, by rw [step, same], ⟨T, table⟩, rfl⟩

theorem TreeSetOp.step_compare {set : TaggedTree .set α} (table : Table set T) (op : TreeSetOp α)
    (keeps : op.KeepsComparator env set) :
    ∃ set', op.step env set = some set' ∧ (∃ T', Table set' T') ∧
      set'.getCompare = set.getCompare := by
  have some_of_last : ∀ {P : Prop}, ¬ (set.numberOfElements ≠ 0 ∧ P) → set.numberOfElements = 1 → ¬ P :=
    fun h last p => h ⟨by omega, p⟩
  cases op with
  | add value =>
    simp only [step, JSAPITreeSet.add]
    by_cases hole : value.isHole = true
    · simp only [if_pos hole]
      exact ⟨set, rfl, ⟨T, table⟩, rfl⟩
    · simp only [if_neg hole]
      obtain ⟨set', run, table', compare⟩ := insert_keeps table env
        (fun h => hole (JSTaggedValue.isHole_eq_true.mpr h)) (fun _ => rfl)
      exact ⟨set', run, table', compare.resolve_right keeps⟩
  | delete key =>
    obtain ⟨set', run, table', compare⟩ := deleteKey_keeps table fun here =>
      kept_of_not_shrinks fun small => keeps ⟨here, small⟩
    exact ⟨set', by rw [setDelete_eq, run], table', compare.resolve_right keeps⟩
  | clear => exact keeps.elim
  | popFirst =>
    obtain ⟨set', run, table', compare⟩ := pop_keeps .left table fun last =>
      kept_of_not_shrinks (some_of_last keeps last) last
    exact ⟨set', run, table', compare.resolve_right keeps⟩
  | popLast =>
    obtain ⟨set', run, table', compare⟩ := pop_keeps .right table fun last =>
      kept_of_not_shrinks (some_of_last keeps last) last
    exact ⟨set', run, table', compare.resolve_right keeps⟩

end Steps

/-- In every run of a tree map or a tree set whose operations neither compact nor clear the table,
    `EntryCompare` uses the comparator of the constructor. -/
theorem comparator_of_run (env : CompareEnv α) (fn : JSTaggedValue α) :
    (∀ ops : List (TreeMapOp α),
      Allowed (TreeMapOp.step env) (fun map op => op.KeepsComparator env map)
        (construct .map (some fn)) ops →
      ∃ map, run (TreeMapOp.step env) (construct .map (some fn)) ops = some map ∧
        map.getCompare = fn ∧ map.entryCompare env = compareBy env fn) ∧
    (∀ ops : List (TreeSetOp α),
      Allowed (TreeSetOp.step env) (fun set op => op.KeepsComparator env set)
        (construct .set (some fn)) ops →
      ∃ set, run (TreeSetOp.step env) (construct .set (some fn)) ops = some set ∧
        set.getCompare = fn ∧ set.entryCompare env = compareBy env fn) := by
  constructor
  · intro ops allowed
    obtain ⟨map, reached, -, compare⟩ := run_invariant
      (I := fun map : TaggedTree .map α => (∃ T, Table map T) ∧ map.getCompare = fn)
      (fun map op inv ok => by
        obtain ⟨⟨T, table⟩, compare⟩ := inv
        obtain ⟨map', run, table', same⟩ := op.step_compare table ok
        exact ⟨map', run, table', same.trans compare⟩)
      ops _ ⟨⟨.nil, construct_table (some fn)⟩, rfl⟩ allowed
    exact ⟨map, reached, compare, by rw [entryCompare_eq, compare]⟩
  · intro ops allowed
    obtain ⟨set, reached, -, compare⟩ := run_invariant
      (I := fun set : TaggedTree .set α => (∃ T, Table set T) ∧ set.getCompare = fn)
      (fun set op inv ok => by
        obtain ⟨⟨T, table⟩, compare⟩ := inv
        obtain ⟨set', run, table', same⟩ := op.step_compare table ok
        exact ⟨set', run, table', same.trans compare⟩)
      ops _ ⟨⟨.nil, construct_table (some fn)⟩, rfl⟩ allowed
    exact ⟨set, reached, compare, by rw [entryCompare_eq, compare]⟩

/-- Integers in descending order, by a callback that subtracts. -/
def descendingEnv (α : Type) : CompareEnv α where
  ordinary := (numberEnv α).ordinary
  call _ x y :=
    match x, y with
    | .int i, .int j => .int (j - i)
    | _, _ => .abrupt

theorem comparator_of_run_descending :
    (∃ map, run (TreeMapOp.step (descendingEnv Unit)) (construct .map (some (.ref ())))
        [.set (.int 1) (.int 5), .set (.int 2) (.int 6), .delete (.int 1)] = some map ∧
      map.getCompare = .ref () ∧
      map.entryCompare (descendingEnv Unit) = compareBy (descendingEnv Unit) (.ref ())) ∧
    (∃ set, run (TreeSetOp.step (descendingEnv Unit)) (construct .set (some (.ref ())))
        [.add (.int 1), .add (.int 2), .popFirst] = some set ∧
      set.getCompare = .ref () ∧
      set.entryCompare (descendingEnv Unit) = compareBy (descendingEnv Unit) (.ref ())) :=
  ⟨(comparator_of_run (descendingEnv Unit) (.ref ())).1 _ (by decide +kernel),
    (comparator_of_run (descendingEnv Unit) (.ref ())).2 _ (by decide +kernel)⟩

/-- `clear` of a map with one entry: the callback is gone, and 1 is no longer above 2. -/
theorem comparator_lost_by_clear :
    ∃ map, run (TreeMapOp.step (descendingEnv Unit)) (construct .map (some (.ref ())))
        [.set (.int 1) (.int 5), .clear] = some map ∧
      map.getCompare ≠ .ref () ∧
      map.entryCompare (descendingEnv Unit) (.int 1) (.int 2) ≠
        compareBy (descendingEnv Unit) (.ref ()) (.int 1) (.int 2) := by
  have state : (run (TreeMapOp.step (descendingEnv Unit)) (construct .map (some (.ref ())))
      [.set (.int 1) (.int 5), .clear]).map (fun map => (map.getCompare,
        map.entryCompare (descendingEnv Unit) (.int 1) (.int 2))) =
      some (.hole, .normal .less) := by decide +kernel
  obtain ⟨map, reached, read⟩ := Option.map_eq_some_iff.mp state
  simp only [Prod.mk.injEq] at read
  refine ⟨map, reached, by rw [read.1]; simp, ?_⟩
  rw [read.2]
  decide

end ArkRuntime
