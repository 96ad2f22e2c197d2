import ArkRuntime.TaggedTree.Ordered

/-!
# The operations of the containers, whatever the comparison does

Each operation of a tree map or a tree set keeps the table a table, for every comparison function,
also one that throws or is no order: the links, colours and counters do not depend on it. The
comparator survives unless the operation makes a compacted table or a new one.
-/

namespace ArkRuntime

open ColorTree TaggedTree

variable {d : TreeDerived} {α : Type} {env : CompareEnv α} {t : TaggedTree d α}
  {T : ColorTree (TreeCell α)} {key value : JSTaggedValue α}

/-- The key is not in the table, and the search for it does not throw. -/
def LacksKey (env : CompareEnv α) (t : TaggedTree d α) (key : JSTaggedValue α) : Prop :=
  t.findEntry env key = some (.normal (-1))

instance (env : CompareEnv α) (t : TaggedTree d α) (key : JSTaggedValue α) :
    Decidable (LacksKey env t key) :=
  match h : t.findEntry env key with
  | some (.normal entry) => decidable_of_iff (entry = -1) (by simp [LacksKey, h])
  | some .abrupt => isFalse (by simp [LacksKey, h])
  | none => isFalse (by simp [LacksKey, h])

theorem insert_keeps (table : Table t T) (env : CompareEnv α) (notHole : key ≠ .hole) (setKey : d = .set → value = key) :
    ∃ t', (t.insert env key value).map (·.tableAfter id t) = some t' ∧ (∃ T', Table t' T') ∧
      (t'.getCompare = t.getCompare ∨ LacksKey env t key ∧ Compacts t) := by
  obtain ⟨res, run, result⟩ := insert_spec table env notHole setKey
  have find := findEntry_table table env key
  rw [run]
  cases found : search (towards (t.entryCompare env) key) T [] with
  | none =>
    rw [found] at result
    rw [show res = .abrupt from result]
    exact ⟨t, rfl, ⟨T, table⟩, .inl rfl⟩
  | some focus =>
    obtain ⟨ctx, S⟩ := focus
    rw [found] at result find
    cases S with
    | node l red a r =>
      obtain ⟨t', rfl, full, notFull⟩ := result
      refine ⟨t', rfl, ?_⟩
      by_cases hf : Full t
      · rw [full hf]
        exact ⟨⟨T, table⟩, .inl rfl⟩
      · obtain ⟨table', hdr⟩ := notFull hf
        exact ⟨⟨_, table'⟩, .inl (by rw [getCompare_eq, hdr]; rfl)⟩
    | nil =>
      obtain ⟨t', T', rfl, table', -, compare⟩ := result
      refine ⟨t', rfl, ⟨T', table'⟩, ?_⟩
      by_cases lost : Compacts t
      · exact .inr ⟨find, lost⟩
      · exact .inl (by rw [getCompare_eq, compare, if_neg lost]; rfl)

/-- The removal of a node keeps the table a table. -/
theorem removeNode_keeps {ctx : List (RBFrame (TreeCell α))} {l r : ColorTree (TreeCell α)} {red : Bool}
    {a : TreeCell α} (table : Table t (plug ctx (.node l red a r)))
    (kept : t.numberOfElements = 1 → t.capacity < 31) :
    ∃ t', t.delete a.entry = some t' ∧ (∃ T', Table t' T') ∧
      (t'.getCompare = t.getCompare ∨ ShrinksAfterRemove t) := by
  obtain ⟨t', T', run, table', -, compare⟩ := delete_spec table fun small last => by
    have := kept last
    have high := small.2
    simp only [capacity_eq] at this
    omega
  refine ⟨t', run, ⟨T', table'⟩, ?_⟩
  by_cases small : ShrinksAfterRemove t
  · exact .inr small
  · exact .inl (by rw [getCompare_eq, compare, if_neg small]; rfl)

theorem deleteKey_keeps (table : Table t T)
    (kept : HasKey env t key → t.numberOfElements = 1 → t.capacity < 31) :
    ∃ t', deleteKey env t key = some t' ∧ (∃ T', Table t' T') ∧
      (t'.getCompare = t.getCompare ∨ HasKey env t key ∧ ShrinksAfterRemove t) := by
  have present := hasKey_iff table env key
  rw [deleteKey_eq table]
  cases found : search (towards (t.entryCompare env) key) T [] with
  | none => exact ⟨t, rfl, ⟨T, table⟩, .inl rfl⟩
  | some focus =>
    obtain ⟨ctx, S⟩ := focus
    cases S with
    | nil => exact ⟨t, rfl, ⟨T, table⟩, .inl rfl⟩
    | node l red a r =>
      have here : HasKey env t key := present.mpr ⟨ctx, l, red, a, r, found⟩
      have whole : plug ctx (.node l red a r) = T := plug_of_search found
      subst whole
      obtain ⟨t', run, table', compare⟩ := removeNode_keeps table (kept here)
      exact ⟨t', run, table', compare.imp_right fun small => ⟨here, small⟩⟩

/-- Every new container has an empty table. -/
theorem construct_table (compareFn : Option (JSTaggedValue α)) : Table (construct d compareFn) .nil := by
  cases compareFn with
  | none => exact create_table minCapacity
  | some fn =>
    have start : Table (create d α minCapacity) .nil := create_table minCapacity
    refine ⟨Encodes_hdr start.encodes (by simp [construct]) (by simp [construct]), start.balanced, ?_⟩
    have s := start.storage
    constructor <;> simp only [construct, hdr_setCompare, cells_setCompare]
    · exact s.elements
    · exact s.deleted
    · exact s.used
    · exact s.inside
    · exact s.unused
    · exact s.capacity
    · exact s.length
    · exact s.outside
    · exact s.below

/-! ## Tree maps -/

section Map

variable {map : TaggedTree .map α} {T : ColorTree (TreeCell α)}

theorem mapDelete_eq : TreeMapOp.step env map (.delete key) = deleteKey env map key := by
  simp only [TreeMapOp.step, JSAPITreeMap.delete, deleteKey]
  cases map.findEntry env key with
  | none => rfl
  | some found =>
    cases found with
    | abrupt => rfl
    | normal entry =>
      simp only [Option.bind_eq_bind, Option.bind_some]
      split_ifs
      · rfl
      · cases map.delete entry <;> rfl

theorem replace_keeps (table : Table map T) (env : CompareEnv α) (key value : JSTaggedValue α) :
    ∃ map', TreeMapOp.step env map (.replace key value) = some map' ∧ (∃ T', Table map' T') ∧
      map'.getCompare = map.getCompare := by
  simp only [TreeMapOp.step, JSAPITreeMap.replace, findEntry_table table, Option.bind_eq_bind,
    Option.bind_some]
  cases found : search (towards (map.entryCompare env) key) T [] with
  | none => exact ⟨map, rfl, ⟨T, table⟩, rfl⟩
  | some focus =>
    obtain ⟨ctx, S⟩ := focus
    cases S with
    | nil => exact ⟨map, rfl, ⟨T, table⟩, rfl⟩
    | node l red a r =>
      have whole : plug ctx (.node l red a r) = T := plug_of_search found
      subst whole
      have nonneg : ¬ ((a.entry : Int) < 0) := by omega
      refine ⟨map.setValue a.entry value, ?_, ⟨_, setValue_table table (by simp)⟩, ?_⟩
      · simp only [foundEntry, rootOf, if_neg nonneg]
        rfl
      · rw [getCompare_eq, hdr_setValue, getCompare_eq]

theorem mapClear_keeps (table : Table map T) :
    (∃ T', Table (JSAPITreeMap.clear map) T') ∧
      (map.numberOfElements = 0 → JSAPITreeMap.clear map = map) := by
  by_cases empty : map.numberOfElements = 0
  · have same : JSAPITreeMap.clear map = map := if_pos empty
    exact ⟨⟨T, by rwa [same]⟩, fun _ => same⟩
  · have fresh : JSAPITreeMap.clear map = _ := if_neg empty
    exact ⟨⟨.nil, by rw [fresh]; exact create_table _⟩, fun h => absurd h empty⟩

/-- The operation does not take the last entry out of a table that is then shrunk. -/
def TreeMapOp.KeepsRoot (env : CompareEnv α) (map : TaggedTree .map α) : TreeMapOp α → Prop
  | .delete key => HasKey env map key → map.numberOfElements = 1 → map.capacity < 31
  | _ => True

/-- One operation of a tree map keeps the table a table. -/
theorem TreeMapOp.step_table (table : Table map T) (op : TreeMapOp α) (keeps : op.KeepsRoot env map) :
    ∃ map', op.step env map = some map' ∧ ∃ T', Table map' T' := by
  cases op with
  | set key value =>
    simp only [step, JSAPITreeMap.set]
    by_cases hole : key.isHole = true
    · simp only [if_pos hole]
      exact ⟨map, rfl, T, table⟩
    · simp only [if_neg hole]
      obtain ⟨map', run, table', -⟩ := insert_keeps table env
        (fun h => hole (JSTaggedValue.isHole_eq_true.mpr h)) (by simp)
      exact ⟨map', run, table'⟩
  | delete key =>
    obtain ⟨map', run, table', -⟩ := deleteKey_keeps table keeps
    exact ⟨map', by rw [mapDelete_eq, run], table'⟩
  | replace key value =>
    obtain ⟨map', run, table', -⟩ := replace_keeps table env key value
    exact ⟨map', run, table'⟩
  | clear => exact ⟨_, rfl, (mapClear_keeps table).1⟩

end Map

end ArkRuntime
