import ArkRuntime.TaggedTree.TreeMap
import ArkRuntime.TaggedTree.Neighbours

/-!
# `SetAll`

The entries of one tree map, in level order, are inserted into another. Each `Insert` may be one of those
that lose a value (the key is there and the array is full) or the comparator (the array is compacted), and
the root of the first map is inserted before anything is known of it: an empty map gives a Hole as a key.
-/

namespace ArkRuntime

open ColorTree TaggedTree

variable {α : Type}

namespace TaggedTree

/-- The insertions that `SetAll` makes, one after the other. -/
def insertAll (env : CompareEnv α) :
    TaggedTree .map α → List (JSTaggedValue α × JSTaggedValue α) →
      Option (Completion (TaggedTree .map α))
  | map, [] => some (.normal map)
  | map, (key, value) :: items =>
      match map.insert env key value with
      | none => none
      | some .abrupt => some .abrupt
      | some (.normal map) => insertAll env map items

/-- The entries queued behind a node of `src`. -/
def queuedEntries (src : TaggedTree .map α) (parent : Int) : List Int :=
  [src.getLeftChildIndex parent, src.getRightChildIndex parent].filter (0 ≤ ·)

/-- The keys and values of `src` in the order of `SetAll`, for at most `fuel` entries. -/
def levelItemsFrom (src : TaggedTree .map α) : Nat → List Int → List (JSTaggedValue α × JSTaggedValue α)
  | 0, _ => []
  | _ + 1, [] => []
  | fuel + 1, parent :: rest =>
      (src.getKey parent, src.getValue parent) :: levelItemsFrom src fuel (rest ++ src.queuedEntries parent)

def levelItems (src : TaggedTree .map α) : List (JSTaggedValue α × JSTaggedValue α) :=
  src.levelItemsFrom src.numberOfElements.toNat [src.getRootEntries]

end TaggedTree

section Order

variable {env : CompareEnv α} {src map : TaggedTree .map α} {T : ColorTree (TreeCell α)}

variable (env src map) in
theorem setAllStep_cons (parent : Int) (rest : List Int) :
    setAllStep env src (parent :: rest, map) =
      match map.insert env (src.getKey parent) (src.getValue parent) with
      | none => .inr none
      | some .abrupt => .inr (some .abrupt)
      | some (.normal map) => .inl (rest ++ src.queuedEntries parent, map) := by
  simp only [setAllStep, queuedEntries]
  cases map.insert env (src.getKey parent) (src.getValue parent) with
  | none => rfl
  | some res =>
    cases res with
    | abrupt => rfl
    | normal map' =>
      simp only [List.filter_cons, List.filter_nil, decide_eq_true_eq]
      split_ifs <;> simp

theorem queuedEntries_node {l r : ColorTree (TreeCell α)} {red : Bool} {a : TreeCell α} {p : Int}
    (holds : Holds src.cells p (.node l red a r)) :
    src.queuedEntries a.entry = (l.queued ++ r.queued).map rootOf := by
  obtain ⟨leftChild, rightChild⟩ := childAt_node holds
  rw [queuedEntries, leftChild, rightChild]
  cases l <;> cases r <;> simp [rootOf, queued]

/-- The loop inserts the nodes of the queued trees in level order. -/
theorem setAll_iter {queue : List (ColorTree (TreeCell α))} (n : Nat) {fuel : Nat}
    (held : ∀ t ∈ queue, t ≠ .nil ∧ ∃ p, Holds src.cells p t) (size : queueSize queue ≤ n)
    (enough : n < fuel) :
    (iter (setAllStep env src) fuel (queue.map rootOf, map)).join =
        insertAll env map ((breadthFirst n queue).map TreeCell.data) ∧
      src.levelItemsFrom n (queue.map rootOf) = (breadthFirst n queue).map TreeCell.data := by
  induction n generalizing queue fuel map with
  | zero =>
    obtain ⟨fuel, rfl⟩ : ∃ k, fuel = k + 1 := ⟨fuel - 1, by omega⟩
    cases queue with
    | nil => exact ⟨rfl, rfl⟩
    | cons t queue =>
      have positive := length_toList_pos (held t List.mem_cons_self).1
      simp only [queueSize, List.flatMap_cons, List.length_append] at size
      omega
  | succ n ih =>
    obtain ⟨fuel, rfl⟩ : ∃ k, fuel = k + 1 := ⟨fuel - 1, by omega⟩
    cases queue with
    | nil => exact ⟨rfl, rfl⟩
    | cons t queue =>
      obtain ⟨nonempty, p, holds⟩ := held t List.mem_cons_self
      cases t with
      | nil => exact absurd rfl nonempty
      | node l red a r =>
        have key := (holds.getKey (a := a) (by simp [toList])).1
        have value : src.getValue a.entry = a.value := by rw [getValue_natCast, holds.1.1, value_nodeRec]
        have later : ∀ t ∈ queue ++ (l.queued ++ r.queued), t ≠ .nil ∧ ∃ p, Holds src.cells p t := by
          intro t mem
          rcases List.mem_append.mp mem with mem | mem
          · exact held t (List.mem_cons_of_mem _ mem)
          · rcases List.mem_append.mp mem with mem | mem
            · obtain ⟨rfl, full⟩ := ne_nil_of_mem_queued mem
              exact ⟨full, a.entry, holds.2.1⟩
            · obtain ⟨rfl, full⟩ := ne_nil_of_mem_queued mem
              exact ⟨full, a.entry, holds.2.2⟩
        rw [queueSize_node] at size
        have step := setAllStep_cons env src map a.entry (queue.map rootOf)
        rw [key, value, queuedEntries_node holds, ← List.map_append] at step
        have rest := fun map : TaggedTree .map α => @ih map (queue ++ (l.queued ++ r.queued)) fuel later
          (by omega) (by omega)
        simp only [List.map_cons, rootOf, breadthFirst, insertAll, levelItemsFrom, TreeCell.data, key, value,
          queuedEntries_node holds, ← List.map_append, (rest map).2, and_true]
        cases inserted : map.insert env a.key a.value with
        | none =>
          rw [inserted] at step
          rw [iter_inr fuel step]
          rfl
        | some res =>
          rw [inserted] at step
          cases res with
          | abrupt =>
            rw [iter_inr fuel step]
            rfl
          | normal map' =>
            rw [iter_inl fuel step]
            exact (rest map').1

variable (env) in
/-- `SetAll` from a table with a node. -/
theorem setAll_eq (table : Table src T) (nonempty : T ≠ .nil) (dst : TaggedTree .map α) :
    setAll env dst src = insertAll env dst src.levelItems ∧
      src.levelItems = (levelOrder T).map TreeCell.data := by
  have room := table.length_le
  have size := table.storage.elements
  rw [entriesOf, List.length_map] at size
  have queue : T.queued = [T] := by
    cases T with
    | nil => exact absurd rfl nonempty
    | node l red a r => rfl
  have count : src.numberOfElements.toNat = T.toList.length := by
    rw [numberOfElements_eq, size]
    rfl
  have held : ∀ t ∈ [T], t ≠ .nil ∧ ∃ p, Holds src.cells p t := fun t mem => by
    rw [List.mem_singleton.mp mem]
    exact ⟨nonempty, -1, table.encodes.holds⟩
  have loop := @setAll_iter _ env src dst [T] T.toList.length (src.fuel + 1) held
    (by simp [queueSize]) (by simp only [fuel, capacity_eq]; omega)
  rw [List.map_singleton, ← table.encodes.root, ← getRootEntries_eq] at loop
  rw [levelItems, levelOrder, queue, count, loop.2]
  exact ⟨loop.1, rfl⟩

end Order

/-! ## What one insertion does to a map -/

variable {L : List (JSTaggedValue α × JSTaggedValue α)}

section Steps

variable {env : CompareEnv α} {fn : JSTaggedValue α} {K : JSTaggedValue α → Prop}
  {map map' : TaggedTree .map α} {m m' : JSTaggedValue α → Option (JSTaggedValue α)}
  {key value : JSTaggedValue α}

/-- A map reads a key of `K` by `FindEntry`. -/
theorem Represents.lookup (rep : Represents env fn K map m) (order : TotalOrderOn (compareBy env fn) K)
    (hk : K key) : m key = some value ↔
      ∃ entry, map.findEntry env key = some (.normal entry) ∧ 0 ≤ entry ∧ map.getValue entry = value := by
  cases rep with
  | hollow h _ _ empty =>
    rw [findEntry_hollow h, empty]
    constructor
    · intro absurd
      cases absurd
    · rintro ⟨entry, found, nonneg, -⟩
      cases found
      omega
  | @ordered T h mem =>
    have present := h.hasKey_iff order hk
    rw [hasKey_iff h.table] at present
    have find := findEntry_table h.table env key
    rw [h.entryCompare_eq] at find present
    obtain ⟨⟨ctx, S⟩, found⟩ := Option.isSome_iff_exists.mp (order.search_isSome hk [] h.keys)
    rw [found] at find present
    rw [find]
    cases S with
    | nil =>
      constructor
      · intro there
        obtain ⟨_, _, _, _, _, absurd⟩ := present.mpr ⟨value, (mem key value).mp there⟩
        cases absurd
      · rintro ⟨entry, same, nonneg, -⟩
        cases same
        exact absurd nonneg (by simp [rootOf])
    | node l red a r =>
      obtain ⟨rfl, rfl⟩ := order.key_of_found hk h.keys found
      obtain ⟨-, ⟨here, -⟩, -, -⟩ := holds_plug.mp h.table.encodes.holds
      have read : map.getValue a.entry = a.value := by rw [getValue_natCast, here, value_nodeRec]
      have label : m a.key = some a.value := by
        rw [mem, items, toList_plug_node]
        simp [TreeCell.data]
      rw [label, Option.some.injEq]
      constructor
      · intro same
        exact ⟨a.entry, rfl, Int.natCast_nonneg _, read.trans same⟩
      · rintro ⟨entry, same, -, rfl⟩
        cases same
        rw [rootOf, read]

/-- What a map holds under the keys of `K` can be read of it. -/
theorem Represents.unique (rep : Represents env fn K map m) (rep' : Represents env fn K map m')
    (order : TotalOrderOn (compareBy env fn) K) (hk : K key) : m key = m' key :=
  Option.ext fun _ => (rep.lookup order hk).trans (rep'.lookup order hk).symm

/-- The keys are counted. -/
theorem Represents.elements (rep : Represents env fn K map m) (order : TotalOrderOn (compareBy env fn) K) :
    ∃ ks : List (JSTaggedValue α), ks.Nodup ∧ (∀ k, k ∈ ks ↔ m k ≠ none) ∧
      map.numberOfElements = ks.length := by
  cases rep with
  | hollow h _ _ empty =>
    exact ⟨[], List.nodup_nil, fun k => by simp [empty], h.storage.elements⟩
  | @ordered T h mem =>
    have size := h.table.storage.elements
    rw [entriesOf, List.length_map] at size
    refine ⟨T.toList.map TreeCell.key, List.pairwise_map.mpr (h.key_ne order), fun k => ?_, ?_⟩
    · rw [Option.ne_none_iff_exists', List.mem_map]
      constructor
      · rintro ⟨c, hc, rfl⟩
        exact ⟨c.value, (mem _ _).mpr (List.mem_map_of_mem hc)⟩
      · rintro ⟨v, there⟩
        obtain ⟨c, hc, data⟩ := List.mem_map.mp ((mem k v).mp there)
        exact ⟨c, hc, congrArg Prod.fst data⟩
    · rw [numberOfElements_eq, size, List.length_map]

theorem Represents.compare (rep : Represents env fn K map m) : map.getCompare = fn := by
  cases rep with
  | hollow _ _ compare _ => exact compare
  | ordered h _ => exact h.compare

/-- The map with another value under one key. -/
def Updated (m m' : JSTaggedValue α → Option (JSTaggedValue α)) (key value : JSTaggedValue α) : Prop :=
  m' key = some value ∧ ∀ k, k ≠ key → m' k = m k

/-- What `Insert` does to a map: it loses the value, it takes effect, or it loses the comparator. -/
inductive InsertCase (env : CompareEnv α) (fn : JSTaggedValue α) (K : JSTaggedValue α → Prop)
    (map : TaggedTree .map α) (m : JSTaggedValue α → Option (JSTaggedValue α))
    (key value : JSTaggedValue α) : Prop
  | lost (old : JSTaggedValue α) : m key = some old → Full map →
      map.insert env key value = some (.normal map) → InsertCase env fn K map m key value
  | replaced (old : JSTaggedValue α) (map' : TaggedTree .map α)
      (m' : JSTaggedValue α → Option (JSTaggedValue α)) : m key = some old → ¬ Full map →
      map.insert env key value = some (.normal map') → Represents env fn K map' m' →
      Updated m m' key value → map'.fill = map.fill → InsertCase env fn K map m key value
  | added (map' : TaggedTree .map α) (m' : JSTaggedValue α → Option (JSTaggedValue α)) :
      m key = none → (Compacts map → fn = .hole) →
      map.insert env key value = some (.normal map') → Represents env fn K map' m' →
      Updated m m' key value → map'.fill = map.fill.inserted → InsertCase env fn K map m key value
  | dropped (map' : TaggedTree .map α) (T' : ColorTree (TreeCell α)) :
      m key = none → Compacts map → fn ≠ .hole → map.insert env key value = some (.normal map') →
      Table map' T' → map'.getCompare = .hole → InsertCase env fn K map m key value

/-- The table after an insertion represents the map with the new value. -/
theorem updated_of_items {T' : ColorTree (TreeCell α)} (h : Ordered env fn K map' T')
    (mem : ∀ k v, (k, v) ∈ items T' ↔ (k = key ∧ v = value) ∨ (k ≠ key ∧ m k = some v)) :
    ∃ m', Represents env fn K map' m' ∧ Updated m m' key value := by
  classical
  refine ⟨Function.update m key (some value), .ordered h fun k v => ?_, Function.update_self _ _ _,
    fun k other => Function.update_of_ne other _ _⟩
  rw [mem, Function.update_apply]
  by_cases same : k = key
  · simp [same, eq_comm]
  · simp [same]

theorem Represents.insertCase (rep : Represents env fn K map m)
    (order : TotalOrderOn (compareBy env fn) K) (hk : K key) (notHole : key ≠ .hole)
    (value : JSTaggedValue α) : InsertCase env fn K map m key value := by
  cases rep with
  | hollow h noFn compare empty =>
    obtain ⟨map', run, table, hdr⟩ := insert_empty_hdr env h.storage (getRootKey_hollow h) notHole
      (by simp : TreeDerived.map = .set → value = key)
    have ordered : Ordered env fn K map' (.node .nil false ⟨0, key, value⟩ .nil) := by
      refine ⟨table, ?_, ?_, ?_⟩
      · rw [getCompare_eq, hdr]
        exact compare
      · simpa [toList] using hk
      · simp [Increasing, toList]
    obtain ⟨m', rep', updated⟩ := updated_of_items (m := m) ordered
      fun k v => show _ ↔ (k = key ∧ v = value) ∨ (k ≠ key ∧ m k = some v) by simp [items, toList, TreeCell.data, empty]
    have first : map.fill.inserted = { map.fill with elements := 1 } := if_pos h.storage.elements
    refine .added map' m' (empty key) (fun _ => noFn) run rep' updated ?_
    rw [first, TaggedTree.fill, hdr]
    rfl
  | @ordered T h mem =>
    have setKey : TreeDerived.map = .set → value = key := by simp
    have present := h.hasKey_iff order hk
    obtain ⟨res, run, result, fills⟩ := insert_spec_fill h.table env notHole setKey
    have here := ArkRuntime.hasKey_iff h.table env key
    rw [h.entryCompare_eq] at result fills here
    obtain ⟨⟨ctx, S⟩, found⟩ := Option.isSome_iff_exists.mp (order.search_isSome hk [] h.keys)
    rw [found] at result fills
    cases S with
    | node l red a r =>
      have has : HasKey env map key := here.mpr ⟨ctx, l, red, a, r, found⟩
      obtain ⟨old, there⟩ := present.mp has
      obtain ⟨map', rfl, full, notFull⟩ := result
      by_cases isFull : Full map
      · rw [full isFull] at run
        exact .lost old ((mem key old).mpr there) isFull run
      · obtain ⟨map'', run', -, other⟩ := h.insert order hk notHole setKey fun absent => absurd has absent
        rw [run] at run'
        cases run'
        obtain ⟨T', h', mem'⟩ := other fun lost => isFull lost.2
        obtain ⟨m', rep', updated⟩ := updated_of_items (m := m) h' fun k v => by rw [mem', mem]
        refine .replaced old map' m' ((mem key old).mpr there) isFull run rep' updated ?_
        rw [TaggedTree.fill, (notFull isFull).2]
        rfl
    | nil =>
      have hasNot : ¬ HasKey env map key := by
        rw [here]
        rintro ⟨ctx', l, red, a, r, found'⟩
        rw [found] at found'
        cases found'
      have absent : m key = none := by
        cases there : m key with
        | none => rfl
        | some v => exact absurd (present.mpr ⟨v, (mem key v).mp there⟩) hasNot
      obtain ⟨map', T', rfl, table', -, compare⟩ := result
      by_cases drops : Compacts map ∧ fn ≠ .hole
      · refine .dropped map' T' absent drops.1 drops.2 run table' ?_
        rw [getCompare_eq, compare, if_pos drops.1]
      · have kept : Compacts map → fn = .hole := fun compacts => by
          by_contra other
          exact drops ⟨compacts, other⟩
        obtain ⟨map'', run', -, other⟩ := h.insert order hk notHole setKey fun _ => kept
        rw [run] at run'
        cases run'
        obtain ⟨T'', h', mem'⟩ := other fun lost => hasNot lost.1
        obtain ⟨m', rep', updated⟩ := updated_of_items (m := m) h' fun k v => by rw [mem', mem]
        exact .added map' m' absent kept run rep' updated fills

/-! ## All insertions -/

/-- After the loss of the comparator no insertion brings it back. -/
theorem insertAll_compare {T : ColorTree (TreeCell α)} (table : Table map T)
    (compare : map.getCompare = .hole) (notHole : ∀ p ∈ L, p.1 ≠ .hole)
    (run : insertAll env map L = some (.normal map')) : map'.getCompare = .hole := by
  induction L generalizing map T with
  | nil =>
    cases run
    exact compare
  | cons p L ih =>
    obtain ⟨key, value⟩ := p
    have later : ∀ p ∈ L, p.1 ≠ .hole := fun p mem => notHole p (List.mem_cons_of_mem _ mem)
    obtain ⟨res, inserted, result⟩ := insert_spec table env (notHole _ List.mem_cons_self)
      (by simp : TreeDerived.map = .set → value = key)
    rw [insertAll, inserted] at run
    cases found : search (towards (map.entryCompare env) key) T [] with
    | none =>
      rw [found] at result
      rw [show res = .abrupt from result] at run
      cases run
    | some focus =>
      obtain ⟨ctx, S⟩ := focus
      rw [found] at result
      cases S with
      | node l red a r =>
        obtain ⟨next, rfl, full, notFull⟩ := result
        by_cases isFull : Full map
        · rw [full isFull] at run
          exact ih table compare later run
        · obtain ⟨table', hdr⟩ := notFull isFull
          refine ih table' ?_ later run
          rw [getCompare_eq, hdr]
          exact compare
      | nil =>
        obtain ⟨next, T', rfl, table', -, kept⟩ := result
        refine ih table' ?_ later run
        rw [getCompare_eq, kept]
        split_ifs
        · rfl
        · exact compare

/-- A key that is not inserted keeps its value, unless the comparator is lost. -/
theorem Represents.insertAll_other (rep : Represents env fn K map m)
    (order : TotalOrderOn (compareBy env fn) K) (notHole : ∀ k, K k → k ≠ .hole) (hk : K key)
    (keys : ∀ p ∈ L, K p.1 ∧ p.1 ≠ key) (run : insertAll env map L = some (.normal map'))
    (rep' : Represents env fn K map' m') : m' key = m key := by
  induction L generalizing map m with
  | nil =>
    cases run
    exact rep'.unique rep order hk
  | cons p L ih =>
    obtain ⟨k, v⟩ := p
    obtain ⟨hk', other⟩ := keys _ List.mem_cons_self
    have later : ∀ p ∈ L, K p.1 ∧ p.1 ≠ key := fun p mem => keys p (List.mem_cons_of_mem _ mem)
    rw [insertAll] at run
    rcases rep.insertCase order hk' (notHole k hk') v with ⟨old, there, full, inserted⟩ |
      ⟨old, next, m1, there, free, inserted, rep1, updated, same⟩ |
      ⟨next, m1, absent, kept, inserted, rep1, updated, counters⟩ |
      ⟨next, T', absent, compacts, noHole, inserted, table', compare⟩ <;> rw [inserted] at run
    · exact ih rep later run
    · rw [ih rep1 later run]
      exact updated.2 key (Ne.symm other)
    · rw [ih rep1 later run]
      exact updated.2 key (Ne.symm other)
    · have lost := insertAll_compare table' compare (fun p mem => notHole _ (later p mem).1) run
      exact absurd (rep'.compare.symm.trans lost) noHole

end Steps

/-! ## When `SetAll` does what it is for -/

/-- `GrowCapacity` compacts an array with these counters. -/
def TaggedTree.Fill.Compacts (c : Fill) : Prop := c.elements ≠ 0 ∧ c.Full ∧ c.deleted ≠ 0

/-- No insertion loses its value and none loses the comparator. A key of the map must not meet a full
    array, unless its value is the new one already, and a new key must not make an array with a comparator
    compact. -/
def Accepts (fn : JSTaggedValue α) (m : JSTaggedValue α → Option (JSTaggedValue α)) :
    Fill → List (JSTaggedValue α × JSTaggedValue α) → Prop
  | _, [] => True
  | c, (key, value) :: items =>
      match m key with
      | some old => (c.Full → old = value) ∧ Accepts fn m c items
      | none => (c.Compacts → fn = .hole) ∧ Accepts fn m c.inserted items

/-- `M` is `m` with the values of `L`. -/
structure Overwrites (m M : JSTaggedValue α → Option (JSTaggedValue α))
    (L : List (JSTaggedValue α × JSTaggedValue α)) : Prop where
  new : ∀ k v, (k, v) ∈ L → M k = some v
  old : ∀ k, (∀ v, (k, v) ∉ L) → M k = m k

section Condition

variable {env : CompareEnv α} {fn : JSTaggedValue α} {K : JSTaggedValue α → Prop}
  {map : TaggedTree .map α} {m M : JSTaggedValue α → Option (JSTaggedValue α)}

theorem accepts_congr {m' : JSTaggedValue α → Option (JSTaggedValue α)} {c : Fill}
    (same : ∀ p ∈ L, m' p.1 = m p.1) : Accepts fn m' c L ↔ Accepts fn m c L := by
  induction L generalizing c with
  | nil => exact Iff.rfl
  | cons p L ih =>
    obtain ⟨key, value⟩ := p
    have later := fun c => ih (c := c) fun p mem => same p (List.mem_cons_of_mem _ mem)
    rw [Accepts, Accepts, same _ List.mem_cons_self]
    cases m key with
    | none => exact and_congr Iff.rfl (later _)
    | some old => exact and_congr Iff.rfl (later _)

/-- After one insertion the others overwrite what it has left. -/
theorem Overwrites.tail {m' : JSTaggedValue α → Option (JSTaggedValue α)} {key value : JSTaggedValue α}
    (overwrites : Overwrites m M ((key, value) :: L)) (updated : Updated m m' key value) :
    Overwrites m' M L where
  new k v mem := overwrites.new k v (List.mem_cons_of_mem _ mem)
  old k absent := by
    by_cases same : k = key
    · rw [same, updated.1]
      exact overwrites.new key value List.mem_cons_self
    · rw [updated.2 k same]
      refine overwrites.old k fun v mem => ?_
      rcases List.mem_cons.mp mem with here | there
      · exact same (congrArg Prod.fst here)
      · exact absent v there

/-- The insertions leave the map they are to leave exactly if each of them takes effect. -/
theorem insertAll_iff (rep : Represents env fn K map m) (order : TotalOrderOn (compareBy env fn) K)
    (notHole : ∀ k, K k → k ≠ .hole) (keys : ∀ p ∈ L, K p.1) (distinct : L.Pairwise fun p q => p.1 ≠ q.1)
    (overwrites : Overwrites m M L) :
    (∃ map', insertAll env map L = some (.normal map') ∧ Represents env fn K map' M) ↔
      Accepts fn m map.fill L := by
  induction L generalizing map m with
  | nil =>
    have same : M = m := funext fun k => overwrites.old k fun v mem => by cases mem
    refine ⟨fun _ => trivial, fun _ => ⟨map, rfl, ?_⟩⟩
    rw [same]
    exact rep
  | cons p L ih =>
    obtain ⟨key, value⟩ := p
    obtain ⟨apart, distinct'⟩ := List.pairwise_cons.mp distinct
    have hk : K key := keys _ List.mem_cons_self
    have keys' : ∀ p ∈ L, K p.1 := fun p mem => keys p (List.mem_cons_of_mem _ mem)
    have other : ∀ p ∈ L, p.1 ≠ key := fun p mem => Ne.symm (apart p mem)
    have new := overwrites.new key value List.mem_cons_self
    rw [insertAll, Accepts]
    rcases rep.insertCase order hk (notHole key hk) value with ⟨old, there, full, inserted⟩ |
      ⟨old, next, m1, there, free, inserted, rep1, updated, same⟩ |
      ⟨next, m1, absent, kept, inserted, rep1, updated, counters⟩ |
      ⟨next, T', absent, compacts, noHole, inserted, table', compare⟩
    · -- the value is lost, so that the map is right only with the same value
      rw [inserted, there]
      by_cases same : old = value
      · have updated : Updated m m key value := ⟨by rw [there, same], fun _ _ => rfl⟩
        have rest := ih rep keys' distinct' (overwrites.tail updated)
        exact rest.trans ⟨fun accepts => ⟨fun _ => same, accepts⟩, And.right⟩
      · refine ⟨?_, fun accepts => absurd (accepts.1 full) same⟩
        rintro ⟨map', run, rep'⟩
        have kept := rep.insertAll_other order notHole hk (fun p mem => ⟨keys' p mem, other p mem⟩) run rep'
        rw [new, there] at kept
        exact absurd (Option.some.inj kept).symm same
    · rw [inserted, there]
      have rest := ih rep1 keys' distinct' (overwrites.tail updated)
      rw [same, accepts_congr fun p mem => updated.2 p.1 (other p mem)] at rest
      exact rest.trans ⟨fun accepts => ⟨fun full => absurd full free, accepts⟩, And.right⟩
    · rw [inserted, absent]
      have rest := ih rep1 keys' distinct' (overwrites.tail updated)
      rw [counters, accepts_congr fun p mem => updated.2 p.1 (other p mem)] at rest
      exact rest.trans ⟨fun accepts => ⟨kept, accepts⟩, And.right⟩
    · rw [inserted, absent]
      refine ⟨?_, fun accepts => absurd (accepts.1 compacts) noHole⟩
      rintro ⟨map', run, rep'⟩
      have lost := insertAll_compare table' compare (fun p mem => notHole _ (keys' p mem)) run
      exact absurd (rep'.compare.symm.trans lost) noHole

end Condition

/-! ## The key of an empty map

The Hole that stands for the root key of an empty map is inserted as a key. Where the search of `Insert`
does not find one it becomes a new entry, which `InsertRebalance` takes for none. -/

section HoleKey

variable {env : CompareEnv α} {fn : JSTaggedValue α} {K : JSTaggedValue α → Prop}
  {map : TaggedTree .map α} {m : JSTaggedValue α → Option (JSTaggedValue α)} {value : JSTaggedValue α}

theorem numberOfElements_setColor (t : TaggedTree .map α) (entry : Int) (color : TreeColor) :
    (t.setColor entry color).numberOfElements = t.numberOfElements := by
  rw [setColor]
  split_ifs with nonneg
  · have apart : (0 : Int) ≠ entryToIndex .map entry + TreeDerived.map.colorIndex := by
      simp only [entryToIndex, TreeDerived.entrySize, TreeDerived.colorIndex]
      omega
    rw [numberOfElements, get_set, if_neg apart, numberOfElements]
  · rfl

theorem insert_root_hole (empty : map.getRootKey.isHole = true) :
    ∃ map', map.insert env .hole value = some (.normal map') ∧
      map'.numberOfElements = map.numberOfElements + 1 := by
  refine ⟨_, by rw [TaggedTree.insert, if_pos empty], ?_⟩
  rw [numberOfElements_eq, hdr_setNumberOfElements, numberOfElements_eq, hdr_setRoot]
  rfl

variable (value) in
theorem insertBelow_hole {f : RBFrame (TreeCell α)} {ctx : List (RBFrame (TreeCell α))}
    {res : ComparisonResult} (table : Table map (plug (f :: ctx) .nil))
    (side : res = .less ↔ f.side = .left) :
    ∃ map', map.insertBelow f.a.entry res .hole value = some map' ∧
      map'.numberOfElements = map.numberOfElements + 1 := by
  have size := table.storage.elements
  have deleted := table.storage.deleted
  obtain ⟨e, entry⟩ : ∃ e : Nat, map.hdr.elements + map.hdr.deleted = e :=
    ⟨(map.hdr.elements + map.hdr.deleted).toNat, by omega⟩
  have fresh : e ∉ entriesOf (plug (f :: ctx) .nil) := fun h => by
    have := table.storage.used e h
    omega
  have parent : f.a.entry ∈ entriesOf (plug (f :: ctx) .nil) :=
    mem_entriesOf_plug.mpr (.inr (ctxParent_mem rfl))
  have ne : f.a.entry ≠ e := fun same => fresh (same ▸ parent)
  rw [insertBelow_eq side entry]
  have cells := cells_insertEntry (s := f.side) ne
    (by simp : TreeDerived.map = .set → value = .hole) (table.storage.unused e fresh) e
  have hdr := hdr_insertEntry f.side map f.a.entry e .hole value
  rw [if_neg (Ne.symm ne), if_pos rfl] at cells
  generalize insertEntry f.side map f.a.entry e .hole value = t at cells hdr
  -- the new entry has no key, so that the rebalancing only blackens the root
  have invalid : (t.setNumberOfElements (t.hdr.elements + 1)).isValidIndex e = false := by
    simp [isValidIndex, cells]
  refine ⟨_, iter_inr _ (if_neg (by simp [invalid])), ?_⟩
  rw [numberOfElements_setColor, numberOfElements_eq, hdr_setNumberOfElements, hdr]
  rfl

/-- Where the search for a Hole ends tells what its insertion does. -/
theorem insert_hole {T : ColorTree (TreeCell α)} (table : Table map T) (nonempty : T ≠ .nil)
    (env : CompareEnv α) (value : JSTaggedValue α) :
    (map.findEntry env .hole = some .abrupt ∧ map.insert env .hole value = some .abrupt) ∨
    (map.findEntry env .hole = some (.normal (-1)) ∧
      ∃ map', map.insert env .hole value = some (.normal map') ∧
        map'.numberOfElements = map.numberOfElements + 1) ∨
    ∃ ctx l red a r, T = plug ctx (.node l red a r) ∧
      map.findEntry env .hole = some (.normal (a.entry : Int)) ∧
      map.insert env .hole value =
        some (.normal (if Full map then map else map.setValue a.entry value)) := by
  obtain ⟨newTree, T', point, grown, table', same, room, -, keep, run, points⟩ :=
    insert_point table nonempty env .hole value
  have alike := search_data (map.entryCompare env) .hole same
  rw [findEntry_table table, run]
  cases found' : search (towards (map.entryCompare env) .hole) T' [] with
  | none =>
    rw [found'] at points alike
    have gone : search (towards (map.entryCompare env) .hole) T [] = none := by simpa using alike.symm
    rw [gone, show point = .abrupt from points]
    exact .inl ⟨rfl, rfl⟩
  | some focus =>
    obtain ⟨ctx', S'⟩ := focus
    rw [found'] at points alike
    obtain ⟨⟨ctx, S⟩, found, same'⟩ := Option.map_eq_some_iff.mp alike.symm
    simp only [Prod.mk.injEq] at same'
    rw [found]
    cases S' with
    | node l1 red1 b r1 =>
      cases S with
      | nil => simp [ColorTree.map] at same'
      | node l red a r =>
        refine .inr (.inr ⟨ctx, l, red, a, r, (plug_of_search found).symm, rfl, ?_⟩)
        rw [show point = .normal (.found b.entry) from points]
        by_cases full : Full map
        · simp [insertAt, full]
        · obtain ⟨rfl, rfl⟩ := keep full
          rw [found] at found'
          simp only [Option.some.injEq, Prod.mk.injEq, ColorTree.node.injEq] at found'
          obtain ⟨-, -, -, rfl, -⟩ := found'
          simp [insertAt, full]
    | nil =>
      cases S with
      | node l red a r => simp [ColorTree.map] at same'
      | nil =>
        refine .inr (.inl ⟨rfl, ?_⟩)
        have whole' := plug_of_search found'
        cases ctx' with
        | nil => exact points.elim
        | cons f ctx' =>
          obtain ⟨res, rfl, side⟩ := points
          rw [plug] at whole'
          rw [← whole'] at table'
          obtain ⟨map', inserted, count⟩ := insertBelow_hole value table' side
          refine ⟨map', by simp only [insertAt, inserted, Option.map_some], ?_⟩
          have counters := congrArg Fill.elements (growCapacity_fill table nonempty grown)
          rw [count, numberOfElements_eq, numberOfElements_eq]
          rw [Fill.grown] at counters
          split_ifs at counters
          · exact congrArg (· + 1) counters
          · exact congrArg (· + 1) counters

theorem Represents.same_elements {map' : TaggedTree .map α} (rep : Represents env fn K map m)
    (rep' : Represents env fn K map' m) (order : TotalOrderOn (compareBy env fn) K) :
    map'.numberOfElements = map.numberOfElements := by
  obtain ⟨ks, once, mem, count⟩ := rep.elements order
  obtain ⟨ks', once', mem', count'⟩ := rep'.elements order
  have perm : ks'.Perm ks := (List.perm_ext_iff_of_nodup once' once).mpr fun k => by rw [mem', mem]
  rw [count, count', perm.length_eq]

/-- The insertion of a Hole leaves a map alone only where the comparator takes the Hole for a key of the
    map, and its value is lost or the same. -/
theorem insertHole_iff (rep : Represents env fn K map m) (order : TotalOrderOn (compareBy env fn) K) :
    (∃ map', map.insert env .hole value = some (.normal map') ∧ Represents env fn K map' m) ↔
      ∃ entry, map.findEntry env .hole = some (.normal entry) ∧ 0 ≤ entry ∧
        (Full map ∨ map.getValue entry = value) := by
  -- a new entry is one too many
  have more : map.findEntry env .hole = some (.normal (-1)) →
      (∃ map', map.insert env .hole value = some (.normal map') ∧
        map'.numberOfElements = map.numberOfElements + 1) →
      ((∃ map', map.insert env .hole value = some (.normal map') ∧ Represents env fn K map' m) ↔
        ∃ entry, map.findEntry env .hole = some (.normal entry) ∧ 0 ≤ entry ∧
          (Full map ∨ map.getValue entry = value)) := by
    rintro notFound ⟨map', inserted, count⟩
    constructor
    · rintro ⟨map'', inserted', rep'⟩
      rw [inserted] at inserted'
      cases inserted'
      have := rep.same_elements rep' order
      omega
    · rintro ⟨entry, found, nonneg, -⟩
      rw [notFound] at found
      cases found
      omega
  cases rep with
  | hollow h noFn compare empty => exact more (findEntry_hollow h) (insert_root_hole (getRootKey_hollow h))
  | @ordered T h mem =>
    by_cases nonempty : T = .nil
    · subst nonempty
      refine more ?_ (insert_root_hole ((getRootKey_isHole h.table.encodes).mpr rfl))
      rw [findEntry_table h.table]
      rfl
    · rcases insert_hole h.table nonempty env value with ⟨abrupt, thrown⟩ | ⟨notFound, inserted⟩ |
        ⟨ctx, l, red, a, r, rfl, found, inserted⟩
      · rw [abrupt, thrown]
        constructor
        · rintro ⟨_, absurd, -⟩
          cases absurd
        · rintro ⟨_, absurd, -⟩
          cases absurd
      · exact more notFound inserted
      · have label : a ∈ (plug ctx (.node l red a r)).toList := by simp [toList_plug, toList]
        have read : map.getValue a.entry = a.value := by
          obtain ⟨-, ⟨here, -⟩, -, -⟩ := holds_plug.mp h.table.encodes.holds
          rw [getValue_natCast, here, value_nodeRec]
        have there : m a.key = some a.value := (mem _ _).mpr (List.mem_map_of_mem label)
        rw [inserted, found]
        by_cases full : Full map
        · rw [if_pos full]
          exact ⟨fun _ => ⟨_, rfl, Int.natCast_nonneg _, .inl full⟩,
            fun _ => ⟨map, rfl, .ordered h mem⟩⟩
        · rw [if_neg full]
          obtain ⟨h', mem'⟩ := h.relabel order rfl (by simp : TreeDerived.map = .set → value = a.key)
            (setValue_table h.table (by simp : TreeDerived.map = .set → value ≠ .hole))
            (by rw [getCompare_eq, hdr_setValue]; exact h.compare)
          obtain ⟨m', rep', new, others⟩ := updated_of_items (m := m) h' fun k v => by rw [mem', mem]
          constructor
          · rintro ⟨map', same, rep⟩
            cases same
            have equal := rep.unique rep' order (h.keys a label)
            rw [there, new] at equal
            exact ⟨_, rfl, Int.natCast_nonneg _, .inr (read.trans (Option.some.inj equal))⟩
          · rintro ⟨entry, same, -, reads⟩
            cases same
            have value' := read.symm.trans (reads.resolve_left full)
            have equal : m' = m := funext fun k => by
              by_cases here : k = a.key
              · rw [here, new, there, value']
              · exact others k here
            rw [equal] at rep'
            exact ⟨_, rfl, rep'⟩

end HoleKey

/-! ## `SetAll` as a whole -/

/-- The condition under which `SetAll` does what it is for. -/
def SetAllTakes (env : CompareEnv α) (fn : JSTaggedValue α) (dst src : TaggedTree .map α)
    (m : JSTaggedValue α → Option (JSTaggedValue α)) : Prop :=
  (src.numberOfElements ≠ 0 → Accepts fn m dst.fill src.levelItems) ∧
  (src.numberOfElements = 0 → ∃ entry, dst.findEntry env .hole = some (.normal entry) ∧ 0 ≤ entry ∧
    (Full dst ∨ dst.getValue entry = src.getValue src.getRootEntries))

/-- `SetAll` leaves the map with the keys of both, the values of `src` first, and counts the keys. -/
def SetsAll (env : CompareEnv α) (fn : JSTaggedValue α) (K : JSTaggedValue α → Prop)
    (dst src : TaggedTree .map α) (mDst mSrc : JSTaggedValue α → Option (JSTaggedValue α)) : Prop :=
  ∃ map, setAll env dst src = some (.normal map) ∧
    Represents env fn K map (fun k => (mSrc k).or (mDst k)) ∧
    ∃ ks : List (JSTaggedValue α), ks.Nodup ∧ (∀ k, k ∈ ks ↔ mDst k ≠ none ∨ mSrc k ≠ none) ∧
      map.numberOfElements = ks.length

section Whole

variable {env : CompareEnv α} {fn fnSrc : JSTaggedValue α} {K : JSTaggedValue α → Prop}
  {dst src : TaggedTree .map α} {mDst mSrc : JSTaggedValue α → Option (JSTaggedValue α)}

/-- An empty map has a root without key and children. -/
theorem setAll_hole (key : src.getKey src.getRootEntries = .hole)
    (leaf : src.queuedEntries src.getRootEntries = []) :
    setAll env dst src = dst.insert env .hole (src.getValue src.getRootEntries) := by
  have step := setAllStep_cons env src dst src.getRootEntries []
  rw [key, leaf] at step
  rw [setAll, fuel]
  cases inserted : dst.insert env .hole (src.getValue src.getRootEntries) with
  | none =>
    rw [inserted] at step
    rw [iter_inr _ step]
    rfl
  | some res =>
    rw [inserted] at step
    cases res with
    | abrupt =>
      rw [iter_inr _ step]
      rfl
    | normal map =>
      rw [iter_inl _ step]
      rfl

theorem Represents.root_empty (rep : Represents env fn K src mSrc)
    (order : TotalOrderOn (compareBy env fn) K) (empty : src.numberOfElements = 0) :
    src.getKey src.getRootEntries = .hole ∧ src.queuedEntries src.getRootEntries = [] ∧
      ∀ k, mSrc k = none := by
  have values : ∀ k, mSrc k = none := by
    obtain ⟨ks, -, mem, count⟩ := rep.elements order
    have gone : ks = [] := List.length_eq_zero_iff.mp (by omega)
    intro k
    by_contra there
    have := (mem k).mpr there
    rw [gone] at this
    cases this
  cases rep with
  | hollow h _ _ _ =>
    have root : src.getRootEntries = (0 : Nat) := h.root
    obtain ⟨left, right⟩ := h.storage.unused 0 (by simp)
    refine ⟨by rw [root, getKey_natCast, h.key], ?_, values⟩
    have noLeft : src.getLeftChildIndex (0 : Nat) = -1 := by
      rw [getLeftChildIndex, getLeftChild_natCast]
      exact congrArg childEntry left
    have noRight : src.getRightChildIndex (0 : Nat) = -1 := by
      rw [getRightChildIndex, getRightChild_natCast]
      exact congrArg childEntry right
    rw [queuedEntries, root, noLeft, noRight]
    rfl
  | ordered h _ =>
    have root := (root_iff_of_table h.table).mpr empty
    rw [root]
    exact ⟨rfl, rfl, values⟩

/-- The entries that `SetAll` inserts. -/
theorem Represents.levelItems (rep : Represents env fn K src mSrc)
    (order : TotalOrderOn (compareBy env fn) K) (nonempty : src.numberOfElements ≠ 0)
    (dst : TaggedTree .map α) :
    (∀ env, setAll env dst src = insertAll env dst src.levelItems) ∧
      (∀ p ∈ src.levelItems, K p.1) ∧ src.levelItems.Pairwise (fun p q => p.1 ≠ q.1) ∧
      ∀ k v, (k, v) ∈ src.levelItems ↔ mSrc k = some v := by
  cases rep with
  | hollow h _ _ _ => exact absurd h.storage.elements nonempty
  | @ordered T h mem =>
    have notNil : T ≠ .nil := fun empty => by
      have size := h.table.storage.elements
      rw [empty] at size
      exact nonempty size
    have list := (setAll_eq env h.table notNil dst).2
    have perm : src.levelItems.Perm (items T) := by
      rw [list]
      exact (levelOrder_perm T).map TreeCell.data
    refine ⟨fun env => (setAll_eq env h.table notNil dst).1, fun p there => ?_, ?_, fun k v => ?_⟩
    · obtain ⟨c, hc, rfl⟩ := List.mem_map.mp (perm.mem_iff.mp there)
      exact h.keys c hc
    · have apart : (items T).Pairwise fun p q => p.1 ≠ q.1 := List.pairwise_map.mpr (h.key_ne order)
      exact perm.symm.pairwise apart fun other => Ne.symm other
    · rw [perm.mem_iff, mem]

end Whole

end ArkRuntime
