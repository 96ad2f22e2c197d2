import ArkRuntime.TaggedTree.Containers

/-!
# Tables with a total order on the keys

`Ordered env fn K t T`: the table `t` with comparator `fn` holds the tree `T`, whose keys are in `K`
and increase. Searching then finds a key exactly where it is, and `Insert` and `Delete` change the
keys and values of the tree (`items`) as a map does.
-/

namespace ArkRuntime

open ColorTree TaggedTree

variable {d : TreeDerived} {α : Type}

/-- `EntryCompare` depends on the table only by its comparator. -/
def compareBy (env : CompareEnv α) (fn : JSTaggedValue α) : KeyCompare α :=
  entryCompare env ((create .map α 0).setCompare fn)

theorem entryCompare_eq (env : CompareEnv α) (t : TaggedTree d α) :
    t.entryCompare env = compareBy env t.getCompare := rfl

theorem compareBy_hole (env : CompareEnv α) : compareBy env .hole = env.ordinary := rfl

/-! ## The operations on one table -/

section Steps

variable {t : TaggedTree d α} {T : ColorTree (TreeCell α)} {env : CompareEnv α}
  {key : JSTaggedValue α}

theorem findEntry_table (table : Table t T) (env : CompareEnv α) (key : JSTaggedValue α) :
    t.findEntry env key = some (foundEntry (search (towards (t.entryCompare env) key) T [])) :=
  findEntry_eq table.encodes table.length_le

/-- The key is found in the table. -/
def HasKey (env : CompareEnv α) (t : TaggedTree d α) (key : JSTaggedValue α) : Prop :=
  ∃ entry, t.findEntry env key = some (.normal entry) ∧ 0 ≤ entry

instance (env : CompareEnv α) (t : TaggedTree d α) (key : JSTaggedValue α) :
    Decidable (HasKey env t key) :=
  match h : t.findEntry env key with
  | some (.normal entry) => decidable_of_iff (0 ≤ entry) (by simp [HasKey, h])
  | some .abrupt => isFalse (by simp [HasKey, h])
  | none => isFalse (by simp [HasKey, h])

theorem hasKey_iff (table : Table t T) (env : CompareEnv α) (key : JSTaggedValue α) :
    HasKey env t key ↔ ∃ ctx l red a r,
      search (towards (t.entryCompare env) key) T [] = some (ctx, .node l red a r) := by
  rw [HasKey, findEntry_table table]
  cases found : search (towards (t.entryCompare env) key) T [] with
  | none => simp [foundEntry]
  | some focus =>
    obtain ⟨ctx, S⟩ := focus
    cases S with
    | nil => simp [foundEntry, rootOf]
    | node l red a r => simp [foundEntry, rootOf]

/-- `FindEntry` and `Delete`, as the containers do it. -/
def deleteKey (env : CompareEnv α) (t : TaggedTree d α) (key : JSTaggedValue α) :
    Option (TaggedTree d α) := do
  match ← t.findEntry env key with
  | .abrupt => some t
  | .normal entry => if entry < 0 then some t else t.delete entry

/-- `deleteKey` by where the search for the key ends. -/
theorem deleteKey_eq (table : Table t T) :
    deleteKey env t key =
      match search (towards (t.entryCompare env) key) T [] with
      | some (_, .node _ _ a _) => t.delete a.entry
      | _ => some t := by
  simp only [deleteKey, findEntry_table table, Option.bind_eq_bind, Option.bind_some]
  cases search (towards (t.entryCompare env) key) T [] with
  | none => rfl
  | some focus =>
    obtain ⟨ctx, S⟩ := focus
    cases S with
    | nil => rfl
    | node l red a r => exact if_neg (by simp only [rootOf]; omega)

end Steps

/-! ## Increasing keys -/

variable {l r : ColorTree (TreeCell α)} {red : Bool} {a : TreeCell α}

section Order

variable {cmp : KeyCompare α} {K : JSTaggedValue α → Prop} {key : JSTaggedValue α}
  {T : ColorTree (TreeCell α)} {ctx : List (RBFrame (TreeCell α))}

/-- `Increasing` speaks of the keys only. -/
theorem increasing_iff {L : List (TreeCell α)} :
    Increasing cmp L ↔
      (L.map TreeCell.data).Pairwise fun a b => cmp a.1 b.1 = .normal .less := by
  rw [List.pairwise_map]
  rfl

/-- A key that is not found goes between the keys before and after the focus. -/
theorem TotalOrderOn.increasing_insert (order : TotalOrderOn cmp K) (hk : K key)
    (hT : ∀ c ∈ T.toList, K c.key) (sorted : Increasing cmp T.toList)
    (found : search (towards cmp key) T [] = some (ctx, .nil)) (value : JSTaggedValue α) :
    ((labelsBefore ctx).map TreeCell.data ++ (key, value) ::
        (labelsAfter ctx).map TreeCell.data).Pairwise fun a b => cmp a.1 b.1 = .normal .less := by
  have labels : T.toList = labelsBefore ctx ++ labelsAfter ctx := by
    have := congrArg toList (plug_of_search found)
    rw [toList_plug] at this
    simpa [plug, toList] using this.symm
  obtain ⟨before, after⟩ := search_directed found (order.directed hk hT sorted)
    (by simp [labelsBefore]) (by simp [labelsAfter])
  rw [increasing_iff, labels, List.map_append, List.pairwise_append] at sorted
  rw [labels] at hT
  refine List.pairwise_append.mpr ⟨sorted.1, List.pairwise_cons.mpr ⟨?_, sorted.2.1⟩, ?_⟩
  · intro b hb
    obtain ⟨c, hc, rfl⟩ := List.mem_map.mp hb
    exact towards_left.mp (after c hc)
  · intro a ha b hb
    rcases List.mem_cons.mp hb with rfl | hb
    · obtain ⟨c, hc, rfl⟩ := List.mem_map.mp ha
      exact (order.towards_right hk (hT c (List.mem_append_left _ hc))).mp (before c hc)
    · exact sorted.2.2 a ha b hb

/-- The focus of a key that is found. -/
theorem TotalOrderOn.key_of_found (order : TotalOrderOn cmp K) (hk : K key) (hT : ∀ c ∈ T.toList, K c.key)
    (found : search (towards cmp key) T [] = some (ctx, .node l red a r)) :
    T = plug ctx (.node l red a r) ∧ a.key = key := by
  have whole : plug ctx (.node l red a r) = T := plug_of_search found
  have mem : a ∈ T.toList := by
    rw [← whole, toList_plug]
    simp [toList]
  exact ⟨whole.symm, ((order.equal _ _ hk (hT a mem)).mp (towards_here.mp (dir_of_search found))).symm⟩

end Order

/-- Keys and values in order. -/
def items (T : ColorTree (TreeCell α)) : List (JSTaggedValue α × JSTaggedValue α) :=
  T.toList.map TreeCell.data

structure Ordered (env : CompareEnv α) (fn : JSTaggedValue α) (K : JSTaggedValue α → Prop)
    (t : TaggedTree d α) (T : ColorTree (TreeCell α)) : Prop where
  table : Table t T
  compare : t.getCompare = fn
  keys : ∀ c ∈ T.toList, K c.key
  increasing : Increasing (compareBy env fn) T.toList

section Ordered

variable {t : TaggedTree d α} {T : ColorTree (TreeCell α)} {env : CompareEnv α} {fn : JSTaggedValue α}
  {K : JSTaggedValue α → Prop} {key value : JSTaggedValue α}

theorem Ordered.entryCompare_eq (h : Ordered env fn K t T) : t.entryCompare env = compareBy env fn := by
  rw [ArkRuntime.entryCompare_eq, h.compare]

/-- Different nodes have different keys. -/
theorem Ordered.key_ne (h : Ordered env fn K t T) (order : TotalOrderOn (compareBy env fn) K) :
    T.toList.Pairwise fun a b => a.key ≠ b.key := by
  refine List.Pairwise.imp_of_mem ?_ h.increasing
  intro a b ha hb less same
  have equal := (order.equal _ _ (h.keys a ha) (h.keys b hb)).mpr same
  rw [less] at equal
  simp at equal

/-- A key is found exactly where it is. -/
theorem Ordered.hasKey_iff (h : Ordered env fn K t T) (order : TotalOrderOn (compareBy env fn) K)
    (hk : K key) : HasKey env t key ↔ ∃ v, (key, v) ∈ items T := by
  rw [ArkRuntime.hasKey_iff h.table, h.entryCompare_eq]
  have directed := order.directed hk h.keys h.increasing
  constructor
  · rintro ⟨ctx, l, red, a, r, found⟩
    obtain ⟨rfl, rfl⟩ := order.key_of_found hk h.keys found
    exact ⟨a.value, by simp [items, toList_plug, toList, TreeCell.data]⟩
  · rintro ⟨v, mem⟩
    obtain ⟨c, hc, data⟩ := List.mem_map.mp mem
    have same : c.key = key := congrArg Prod.fst data
    obtain ⟨⟨ctx, S⟩, found⟩ := Option.isSome_iff_exists.mp (order.search_isSome hk [] h.keys)
    cases S with
    | node l red a r => exact ⟨ctx, l, red, a, r, found⟩
    | nil =>
      refine absurd ?_ (not_here_of_search found directed c hc)
      exact towards_here.mpr ((order.equal _ _ hk (h.keys c hc)).mpr same.symm)

/-- The items around a node whose key occurs once. -/
theorem Ordered.mem_items_focus {ctx : List (RBFrame (TreeCell α))}
    (h : Ordered env fn K t (plug ctx (.node l red a r))) (order : TotalOrderOn (compareBy env fn) K)
    (k v : JSTaggedValue α) :
    (k, v) ∈ remaining ctx l r ↔ k ≠ a.key ∧ (k, v) ∈ items (plug ctx (.node l red a r)) := by
  have split := toList_plug_node ctx l r red a
  have ne := h.key_ne order
  rw [split, List.pairwise_append, List.pairwise_cons] at ne
  obtain ⟨-, ⟨after, -⟩, before⟩ := ne
  simp only [remaining, items, split, List.map_append, List.map_cons, List.mem_append, List.mem_cons,
    List.mem_map, TreeCell.data, Prod.mk.injEq]
  simp only [List.mem_append] at before after
  constructor
  · rintro ((⟨c, hc, rfl, rfl⟩ | ⟨c, hc, rfl, rfl⟩) | (⟨c, hc, rfl, rfl⟩ | ⟨c, hc, rfl, rfl⟩))
    · exact ⟨before c (.inl hc) a List.mem_cons_self, .inl (.inl ⟨c, hc, rfl, rfl⟩)⟩
    · exact ⟨before c (.inr hc) a List.mem_cons_self, .inl (.inr ⟨c, hc, rfl, rfl⟩)⟩
    · exact ⟨Ne.symm (after c (.inl hc)), .inr (.inr (.inl ⟨c, hc, rfl, rfl⟩))⟩
    · exact ⟨Ne.symm (after c (.inr hc)), .inr (.inr (.inr ⟨c, hc, rfl, rfl⟩))⟩
  · rintro ⟨other, (hb | hl) | ⟨rfl, -⟩ | hr | ha⟩
    · exact .inl (.inl hb)
    · exact .inl (.inr hl)
    · exact absurd rfl other
    · exact .inr (.inl hr)
    · exact .inr (.inr ha)

/-- A new value under a key that is there. -/
theorem Ordered.relabel {ctx : List (RBFrame (TreeCell α))} {t' : TaggedTree d α}
    (h : Ordered env fn K t (plug ctx (.node l red a r))) (order : TotalOrderOn (compareBy env fn) K)
    (sameKey : a.key = key) (setKey : d = .set → value = key)
    (table' : Table t' (plug ctx (.node l red (a.withValue d value) r))) (compare : t'.getCompare = fn) :
    Ordered env fn K t' (plug ctx (.node l red (a.withValue d value) r)) ∧
      ∀ k v, (k, v) ∈ items (plug ctx (.node l red (a.withValue d value) r)) ↔
        (k = key ∧ v = value) ∨ (k ≠ key ∧ (k, v) ∈ items (plug ctx (.node l red a r))) := by
  have label : (a.withValue d value).key = a.key ∧ (a.withValue d value).data = (key, value) := by
    cases d with
    | map => exact ⟨rfl, by simp [TreeCell.withValue, TreeCell.data, sameKey]⟩
    | set => exact ⟨by simp [TreeCell.withValue, setKey rfl, sameKey],
        by simp [TreeCell.withValue, TreeCell.data, setKey rfl]⟩
  have keysSame : (plug ctx (.node l red (a.withValue d value) r)).toList.map TreeCell.key =
      (plug ctx (.node l red a r)).toList.map TreeCell.key := by
    simp [toList_plug, toList, label.1]
  refine ⟨⟨table', compare, ?_, ?_⟩, ?_⟩
  · intro c hc
    have : c.key ∈ (plug ctx (.node l red a r)).toList.map TreeCell.key := by
      rw [← keysSame]
      exact List.mem_map_of_mem hc
    obtain ⟨c', hc', same⟩ := List.mem_map.mp this
    rw [← same]
    exact h.keys c' hc'
  · have sorted := h.increasing
    rw [Increasing, ← List.pairwise_map (f := TreeCell.key)
      (R := fun x y => compareBy env fn x y = .normal .less)] at sorted ⊢
    rwa [keysSame]
  · intro k v
    have others := h.mem_items_focus order k v
    rw [sameKey] at others
    rw [← others, items, toList_plug_node, List.map_append, List.map_cons, label.2, remaining,
      List.mem_append, List.mem_append, List.mem_cons, Prod.mk.injEq, or_left_comm]

/-- `Insert` in an ordered table: a key that is there gets the new value, unless the array is full;
    any other key is added. -/
theorem Ordered.insert (h : Ordered env fn K t T) (order : TotalOrderOn (compareBy env fn) K)
    (hk : K key) (notHole : key ≠ .hole) (setKey : d = .set → value = key)
    (kept : ¬ HasKey env t key → Compacts t → fn = .hole) :
    ∃ t', t.insert env key value = some (.normal t') ∧
      (HasKey env t key → Full t → t' = t) ∧
      (¬ (HasKey env t key ∧ Full t) → ∃ T', Ordered env fn K t' T' ∧
        ∀ k v, (k, v) ∈ items T' ↔ (k = key ∧ v = value) ∨ (k ≠ key ∧ (k, v) ∈ items T)) := by
  obtain ⟨res, run, result⟩ := insert_spec h.table env notHole setKey
  rw [h.entryCompare_eq] at result
  have present := ArkRuntime.hasKey_iff h.table env key
  rw [h.entryCompare_eq] at present
  obtain ⟨⟨ctx, S⟩, found⟩ := Option.isSome_iff_exists.mp (order.search_isSome hk [] h.keys)
  rw [found] at result
  cases S with
  | node l red a r =>
    obtain ⟨t', rfl, full, notFull⟩ := result
    have here : HasKey env t key := present.mpr ⟨ctx, l, red, a, r, found⟩
    obtain ⟨rfl, sameKey⟩ := order.key_of_found hk h.keys found
    refine ⟨t', run, fun _ => full, fun free => ?_⟩
    obtain ⟨table', hdr⟩ := notFull fun hf => free ⟨here, hf⟩
    refine ⟨_, h.relabel order sameKey setKey table' ?_⟩
    rw [getCompare_eq, hdr]
    exact h.compare
  | nil =>
    obtain ⟨t', T', rfl, table', labels, compare⟩ := result
    have absent : ¬ HasKey env t key := by
      rw [present]
      rintro ⟨ctx', l, red, a, r, found'⟩
      rw [found] at found'
      simp at found'
    have old : T.toList = labelsBefore ctx ++ labelsAfter ctx := by
      have := congrArg toList (plug_of_search found)
      rw [toList_plug] at this
      simpa [plug, toList] using this.symm
    have mem : ∀ k v, (k, v) ∈ items T' ↔ (k = key ∧ v = value) ∨ (k, v) ∈ items T := by
      intro k v
      rw [items, labels, items, old]
      rw [List.map_append, List.mem_append, List.mem_append, List.mem_cons, Prod.mk.injEq,
        or_left_comm]
    refine ⟨t', run, fun here => absurd here absent, fun _ => ⟨T', ⟨table', ?_, ?_, ?_⟩, ?_⟩⟩
    · rw [getCompare_eq, compare]
      split_ifs with lost
      · exact (kept absent lost).symm
      · exact h.compare
    · intro c hc
      rcases (mem c.key c.value).mp (List.mem_map_of_mem hc) with ⟨same, -⟩ | there
      · rw [same]
        exact hk
      · obtain ⟨c', hc', data⟩ := List.mem_map.mp there
        rw [← show c'.key = c.key from congrArg Prod.fst data]
        exact h.keys c' hc'
    · rw [increasing_iff, labels]
      exact order.increasing_insert hk h.keys h.increasing found value
    · intro k v
      rw [mem]
      refine or_congr Iff.rfl ⟨fun there => ⟨?_, there⟩, And.right⟩
      rintro rfl
      exact absent ((h.hasKey_iff order hk).mpr ⟨v, there⟩)

/-- `Delete` of a key in an ordered table, where the table is kept or is not the last one. -/
theorem Ordered.delete (h : Ordered env fn K t T) (order : TotalOrderOn (compareBy env fn) K)
    (hk : K key) (kept : HasKey env t key → ShrinksAfterRemove t → fn = .hole ∧ t.hdr.elements ≠ 1) :
    ∃ t' T', deleteKey env t key = some t' ∧ Ordered env fn K t' T' ∧
      ∀ k v, (k, v) ∈ items T' ↔ k ≠ key ∧ (k, v) ∈ items T := by
  rw [deleteKey_eq h.table]
  have present := ArkRuntime.hasKey_iff h.table env key
  rw [h.entryCompare_eq] at present ⊢
  obtain ⟨⟨ctx, S⟩, found⟩ := Option.isSome_iff_exists.mp (order.search_isSome hk [] h.keys)
  rw [found]
  cases S with
  | nil =>
    refine ⟨t, T, rfl, h, fun k v => ⟨fun there => ⟨?_, there⟩, And.right⟩⟩
    rintro rfl
    obtain ⟨ctx', l, red, a, r, found'⟩ := present.mp ((h.hasKey_iff order hk).mpr ⟨v, there⟩)
    rw [found] at found'
    simp at found'
  | node l red a r =>
    have here : HasKey env t key := present.mpr ⟨ctx, l, red, a, r, found⟩
    obtain ⟨rfl, sameKey⟩ := order.key_of_found hk h.keys found
    obtain ⟨t', T', run, table', left, compare⟩ :=
      delete_spec h.table fun small => (kept here small).2
    have mem : ∀ k v, (k, v) ∈ items T' ↔ k ≠ key ∧ (k, v) ∈ items (plug ctx (.node l red a r)) := by
      intro k v
      rw [items, left, h.mem_items_focus order, sameKey]
    refine ⟨t', T', run, ⟨table', ?_, ?_, ?_⟩, mem⟩
    · rw [getCompare_eq, compare]
      split_ifs with lost
      · exact (kept here lost).1.symm
      · exact h.compare
    · intro c hc
      obtain ⟨c', hc', data⟩ :=
        List.mem_map.mp ((mem c.key c.value).mp (List.mem_map_of_mem hc)).2
      rw [← show c'.key = c.key from congrArg Prod.fst data]
      exact h.keys c' hc'
    · have sorted := h.increasing
      rw [increasing_iff] at sorted ⊢
      rw [left]
      refine sorted.sublist ?_
      rw [toList_plug_node, List.map_append, remaining, List.map_cons]
      exact List.Sublist.append (List.Sublist.refl _) (List.sublist_cons_self _ _)

end Ordered

/-! ## The order of numbers -/

/-- The environment with integers as keys: `OrdinayEntryCompare` compares them by value. -/
def numberEnv (α : Type) : CompareEnv α where
  ordinary x y :=
    match x, y with
    | .int i, .int j => .normal (if i < j then .less else if i = j then .equal else .great)
    | _, _ => .abrupt
  call _ _ _ := .abrupt

def IsInt (k : JSTaggedValue α) : Prop := ∃ i, k = .int i

theorem numberEnv_order : TotalOrderOn (numberEnv α).ordinary IsInt := by
  constructor
  · rintro _ _ ⟨i, rfl⟩ ⟨j, rfl⟩
    simp only [numberEnv, Completion.normal.injEq]
    split_ifs <;> simp
  · rintro _ _ ⟨i, rfl⟩ ⟨j, rfl⟩
    simp only [numberEnv, Completion.normal.injEq, JSTaggedValue.int.injEq]
    split_ifs <;> simp only [false_iff, true_iff] <;> omega
  · rintro _ _ ⟨i, rfl⟩ ⟨j, rfl⟩
    simp only [numberEnv, Completion.normal.injEq]
    split_ifs <;> simp only [iff_true, iff_false, not_true_eq_false] <;> omega
  · rintro _ _ _ ⟨i, rfl⟩ ⟨j, rfl⟩ ⟨k, rfl⟩
    simp only [numberEnv, Completion.normal.injEq]
    split_ifs <;> simp <;> omega

end ArkRuntime
