import ArkRuntime.TaggedTree.Adjust
import ArkRuntime.TaggedTree.DeleteRebalance
import ArkRuntime.TaggedTree.Search
import Mathlib.Data.List.Perm.Subperm

/-!
# The invariant of a table

`Storage t es` is what holds of the array besides the links: the counters, the length, and the
entries that are not nodes of the tree. `Table t T` adds that the array encodes the balanced tree
`T`. `Insert` and `GrowCapacity` keep it whatever the comparison does.
-/

namespace ArkRuntime

open ColorTree

variable {d : TreeDerived} {α : Type}

/-- The array around the entries `es` of the tree. -/
structure Storage (t : TaggedTree d α) (es : List Nat) : Prop where
  elements : t.hdr.elements = es.length
  deleted : 0 ≤ t.hdr.deleted
  used : ∀ e ∈ es, (e : Int) < t.hdr.elements + t.hdr.deleted
  inside : ∀ e ∈ es, (e : Int) < t.hdr.capacity
  unused : ∀ e, e ∉ es → (t.cells e).left = .hole ∧ (t.cells e).right = .hole
  capacity : 7 ≤ t.hdr.capacity
  length : t.hdr.length = 5 + t.hdr.capacity * d.entrySize
  outside : ∀ e : Nat, t.hdr.capacity ≤ e → t.cells e = blankNode
  below : t.hdr.below = fun _ => .hole

structure Table (t : TaggedTree d α) (T : ColorTree (TreeCell α)) : Prop where
  encodes : Encodes t T
  balanced : ∃ m, Balanced TaggedTree.NoneAbsent false m T
  storage : Storage t (entriesOf T)

variable {t : TaggedTree d α} {es : List Nat}

theorem Storage.perm {es' : List Nat} (h : Storage t es) (perm : es'.Perm es) : Storage t es' where
  elements := by rw [perm.length_eq, h.elements]
  deleted := h.deleted
  used e he := h.used e (perm.mem_iff.mp he)
  inside e he := h.inside e (perm.mem_iff.mp he)
  unused e he := h.unused e fun hin => he (perm.mem_iff.mpr hin)
  capacity := h.capacity
  length := h.length
  outside := h.outside
  below := h.below

/-- A change of the root and of entries of the tree. -/
theorem Storage.edits {t' : TaggedTree d α} (h : Storage t es) (edits : Edits es t t') : Storage t' es := by
  obtain ⟨hdr, cells⟩ := edits
  have capacity : t'.hdr.capacity = t.hdr.capacity := by rw [hdr]
  refine ⟨by rw [hdr]; exact h.elements, by rw [hdr]; exact h.deleted, by rw [hdr]; exact h.used,
    by rw [hdr]; exact h.inside, ?_, by rw [hdr]; exact h.capacity, by rw [hdr]; exact h.length, ?_,
    by rw [hdr]; exact h.below⟩
  · intro e he
    rw [cells e he]
    exact h.unused e he
  · intro e he
    rw [capacity] at he
    have out : e ∉ es := fun hin => by have := h.inside e hin; omega
    rw [cells e out]
    exact h.outside e he

/-- The entries of the tree are different numbers below the capacity. -/
theorem Storage.length_le (storage : Storage t es) (distinct : es.Nodup) :
    (es.length : Int) ≤ t.hdr.capacity := by
  have sub : ∀ e ∈ es, e ∈ List.range t.hdr.capacity.toNat := by
    intro e he
    have := storage.inside e he
    exact List.mem_range.mpr (by omega)
  have := (List.subperm_of_subset distinct sub).length_le
  have cap := storage.capacity
  simp only [List.length_range] at this
  omega

theorem Table.length_le {T : ColorTree (TreeCell α)} (table : Table t T) :
    (T.toList.length : Int) ≤ t.hdr.capacity := by
  have := table.storage.length_le table.encodes.distinct
  rwa [entriesOf, List.length_map] at this

namespace TaggedTree

variable {T : ColorTree (TreeCell α)}

/-- The root key of a table is a Hole exactly where the tree is empty. -/
theorem getRootKey_isHole {t : TaggedTree d α} (enc : Encodes t T) :
    t.getRootKey.isHole = true ↔ T = .nil := by
  rw [getRootKey, getRootEntries_eq, enc.root, JSTaggedValue.isHole_eq_true]
  constructor
  · intro hole
    by_contra nonempty
    exact getKey_rootOf enc.holds nonempty hole
  · rintro rfl
    rfl

/-! ## Another label at a node -/

/-- Another label at a node leaves the balance as it is. -/
theorem balanced_relabel {ctx : List (RBFrame (TreeCell α))} {l r : ColorTree (TreeCell α)} {red : Bool}
    {a : TreeCell α} (b : TreeCell α) {m : Nat}
    (h : Balanced NoneAbsent false m (plug ctx (.node l red a r))) :
    ∃ m, Balanced NoneAbsent false m (plug ctx (.node l red b r)) := by
  have none : ∀ c : TreeCell α, ¬ NoneAbsent c := fun _ => id
  obtain ⟨c, n, focus, around⟩ := h.of_plug (.inl (by simp))
  exact around.plug ((balanced_node none).mpr ((balanced_node none).mp focus))

/-- Key and value of one entry change. -/
theorem relabel_table {t t' : TaggedTree d α} {ctx : List (RBFrame (TreeCell α))}
    {l r : ColorTree (TreeCell α)} {red : Bool} {a b : TreeCell α}
    (table : Table t (plug ctx (.node l red a r))) (entry : b.entry = a.entry) (notHole : b.key ≠ .hole)
    (edits : Edits [a.entry] t t') (root : t'.hdr.root = t.hdr.root)
    (changed : t'.cells a.entry = nodeRec b red (ctxParent ctx) .left (link l) (link r)) :
    Table t' (plug ctx (.node l red b r)) := by
  obtain ⟨-, -, hl, hr⟩ := holds_plug.mp table.encodes.holds
  obtain ⟨dfocus, -, -⟩ := nodup_plug.mp table.encodes.distinct
  obtain ⟨al, ar, -, -, -⟩ := (nodup_join (s := .left)).mp dfocus
  obtain ⟨m, balanced⟩ := table.balanced
  have away : ∀ e, e ≠ a.entry → t'.cells e = t.cells e :=
    fun e he => edits.cells e (by simpa using he)
  have entriesFocus : entriesOf (.node l red b r) = entriesOf (.node l red a r) := by
    simp [entriesOf, toList, entry]
  have entries : entriesOf (plug ctx (.node l red b r)) = entriesOf (plug ctx (.node l red a r)) := by
    simp [entriesOf, toList_plug, toList, entry]
  have inFocus : ∀ e ∈ [a.entry], e ∈ entriesOf (.node l red a r) := by
    intro e he
    rw [List.mem_singleton.mp he]
    exact mem_entriesOf_join (s := .left).mpr (.inl rfl)
  refine ⟨table.encodes.replace ((Edits.refl _ t).trans edits inFocus) root (by simp [link, entry])
    ⟨⟨?_, notHole⟩, ?_, ?_⟩ (by rw [entriesFocus]), balanced_relabel _ balanced, ?_⟩
  · rw [entry, changed]
  · rw [entry]
    exact hl.congr fun e he => away e (by rintro rfl; exact al he)
  · rw [entry]
    exact hr.congr fun e he => away e (by rintro rfl; exact ar he)
  · rw [entries]
    exact table.storage.edits ((Edits.refl _ t).trans edits fun e he =>
      mem_entriesOf_plug.mpr (.inl (inFocus e he)))

/-! ## A new table -/

theorem create_table (n : Int) : Table (create d α n) (.nil) := by
  have cells : ∀ e, (create d α n).cells e = blankNode := by
    intro e
    simp only [create, cells_setCapacity, cells_setCompare, cells_setRootEntries,
      cells_setNumberOfDeletedElements, cells_setNumberOfElements, cells_newTaggedArray]
  have below : (⟨.newTaggedArray (5 + (if minCapacity < n then n else minCapacity) * d.entrySize)⟩ :
      TaggedTree d α).hdr.below = fun _ => .hole := by
    funext i
    simp only [hdr]
    split_ifs <;> rfl
  have hdr : (create d α n).hdr = ⟨0, 0, if minCapacity < n then n else minCapacity, -1, .hole,
      5 + (if minCapacity < n then n else minCapacity) * d.entrySize, fun _ => .hole⟩ := by
    rw [← below]
    simp only [create, hdr_setCapacity, hdr_setCompare, hdr_setRootEntries,
      hdr_setNumberOfDeletedElements, hdr_setNumberOfElements]
    rfl
  refine ⟨⟨by rw [hdr]; rfl, trivial, List.nodup_nil⟩, ⟨0, .nil⟩, ?_⟩
  constructor <;> simp only [hdr, cells, minCapacity]
  · rfl
  · decide
  · simp [entriesOf, toList]
  · simp [entriesOf, toList]
  · exact fun _ _ => ⟨rfl, rfl⟩
  · split_ifs <;> omega
  · exact fun _ _ => trivial

/-! ## A table of another capacity -/

theorem Encodes_hdr {t t' : TaggedTree d α} (enc : Encodes t T) (root : t'.hdr.root = t.hdr.root)
    (cells : t'.cells = t.cells) : Encodes t' T :=
  ⟨by rw [root, enc.root], by rw [cells]; exact enc.holds, enc.distinct⟩

/-- The compacted table. -/
theorem compact_table {t : TaggedTree d α} (newCapacity : Int) (table : Table t T) (nonempty : T ≠ .nil)
    (deleted : t.hdr.deleted ≠ 0) (enough : 7 ≤ newCapacity) (room : (T.toList.length : Int) ≤ newCapacity) :
    ∃ newTree T', t.adjustTaggedTree (5 + newCapacity * d.entrySize) = some newTree ∧
      Table (newTree.setCapacity newCapacity) T' ∧ T'.map TreeCell.data = T.map TreeCell.data ∧
      newTree.hdr.compare = .hole ∧ newTree.hdr.elements = T.toList.length ∧
      newTree.hdr.deleted = 0 := by
  obtain ⟨newTree, T', run, enc, same, entries, hdr, blank⟩ := adjustTaggedTree_compact
    (5 + newCapacity * d.entrySize) table.encodes nonempty deleted table.length_le
  have size := table.storage.elements
  simp only [entriesOf, List.length_map] at size
  have mem : ∀ e, e ∈ entriesOf T' ↔ e < T.toList.length := fun e => by
    rw [entries.mem_iff, List.mem_range]
  have count : (entriesOf T').length = T.toList.length := by
    rw [entries.length_eq, List.length_range]
  refine ⟨newTree, T', run, ⟨Encodes_hdr enc (by simp) (by simp), ?_, ?_⟩, same, ?_, ?_, ?_⟩
  · obtain ⟨m, balanced⟩ := table.balanced
    have none : ∀ c : TreeCell α, ¬ NoneAbsent c := fun _ => id
    have none' : ∀ c : JSTaggedValue α × JSTaggedValue α, ¬ False := fun _ => id
    exact ⟨m, (balanced_map TreeCell.data none none').mp
      (by rw [same]; exact (balanced_map TreeCell.data none none').mpr balanced)⟩
  · constructor <;> simp only [hdr_setCapacity, cells_setCapacity, hdr, mem, count]
    · exact size
    · decide
    · intro e he
      omega
    · intro e he
      omega
    · intro e he
      rw [blank e (by omega)]
      exact ⟨rfl, rfl⟩
    · exact enough
    · intro e he
      exact blank e (by omega)
  · rw [hdr]
  · rw [hdr, size]
  · rw [hdr]

/-- The table extended to another capacity has the same entries. -/
theorem extend_cells {t : TaggedTree d α} {es : List Nat} (storage : Storage t es) (len : Int) :
    (⟨t.toTaggedArray.extendArray len⟩ : TaggedTree d α).cells = t.cells := by
  funext e
  have length : t.length = 5 + t.hdr.capacity * d.entrySize := storage.length
  have slot : ∀ o : Int, 0 ≤ o → o < d.entrySize →
      (entryToIndex d e + o < t.length ↔ (e : Int) < t.hdr.capacity) := by
    intro o low high
    rw [length]
    cases d <;> simp only [entryToIndex, TreeDerived.entrySize] at high ⊢ <;> omega
  have key := slot 0 (by omega) (by cases d <;> decide)
  rw [Int.add_zero] at key
  simp only [cells, TaggedArray.get_extendArray, key,
    slot d.valueIndex (by cases d <;> decide) (by cases d <;> decide),
    slot d.colorIndex (by cases d <;> decide) (by cases d <;> decide),
    slot d.parentIndex (by cases d <;> decide) (by cases d <;> decide),
    slot d.leftChildIndex (by cases d <;> decide) (by cases d <;> decide),
    slot d.rightChildIndex (by cases d <;> decide) (by cases d <;> decide)]
  by_cases inside : (e : Int) < t.hdr.capacity
  · simp only [if_pos inside]
  · simp only [if_neg inside]
    exact (storage.outside e (by omega)).symm

theorem extend_hdr {t : TaggedTree d α} {es : List Nat} (storage : Storage t es) (len : Int) :
    (⟨t.toTaggedArray.extendArray len⟩ : TaggedTree d α).hdr = { t.hdr with length := len } := by
  have long : 5 ≤ t.length := by
    have length : t.length = 5 + t.hdr.capacity * d.entrySize := storage.length
    have := storage.capacity
    cases d <;> simp only [TreeDerived.entrySize] at length <;> omega
  have same : ∀ i : Int, i < 5 →
      (⟨t.toTaggedArray.extendArray len⟩ : TaggedTree d α).get i = t.get i := by
    intro i hi
    rw [TaggedArray.get_extendArray, if_pos (by omega)]
  have below : (⟨t.toTaggedArray.extendArray len⟩ : TaggedTree d α).hdr.below = t.hdr.below := by
    funext i
    simp only [hdr]
    split_ifs with hi
    · exact same i (by omega)
    · rfl
  simp only [hdr, TreeHeader.mk.injEq] at below ⊢
  simp only [numberOfElements, numberOfDeletedElements, capacity, getRootEntries, getCompare,
    same 0 (by omega), same 1 (by omega), same 2 (by omega), same 3 (by omega), same 4 (by omega),
    below, and_true, true_and]
  rfl

/-- The array has no room for one more entry. -/
def Full (t : TaggedTree d α) : Prop := t.hdr.capacity < t.hdr.elements + t.hdr.deleted + 1

instance (t : TaggedTree d α) : Decidable (Full t) := inferInstanceAs (Decidable (_ < _))

/-! ## How full an array is -/

/-- The counters of the header that tell whether the array is full. -/
structure Fill where
  elements : Int
  deleted : Int
  capacity : Int
  deriving DecidableEq

namespace Fill

def Full (c : Fill) : Prop := c.capacity < c.elements + c.deleted + 1

instance (c : Fill) : Decidable c.Full := inferInstanceAs (Decidable (_ < _))

/-- The counters after `GrowCapacity`. -/
def grown (c : Fill) : Fill :=
  if c.Full then ⟨c.elements, 0, computeCapacity c.capacity⟩ else c

/-- The counters after the insertion of a new key. The first key does not make the array grow. -/
def inserted (c : Fill) : Fill :=
  if c.elements = 0 then { c with elements := 1 } else { c.grown with elements := c.elements + 1 }

end Fill

def fill (t : TaggedTree d α) : Fill := ⟨t.hdr.elements, t.hdr.deleted, t.hdr.capacity⟩

/-! ## Growing -/

/-- `GrowCapacity` gives a table of the same tree with room for one more entry; only the
    compacting one loses the comparator. -/
theorem growCapacity_spec {t : TaggedTree d α} (table : Table t T) (nonempty : T ≠ .nil) :
    ∃ newTree T', t.growCapacity = some ⟨newTree, decide (Full t)⟩ ∧ Table newTree T' ∧
      T'.map TreeCell.data = T.map TreeCell.data ∧
      newTree.hdr.elements + newTree.hdr.deleted < newTree.hdr.capacity ∧
      newTree.hdr.compare = (if Full t ∧ t.hdr.deleted ≠ 0 then .hole else t.hdr.compare) ∧
      (¬ Full t → newTree = t ∧ T' = T) ∧ fill newTree = (fill t).grown := by
  have small := table.length_le
  have size := table.storage.elements
  have cap := table.storage.capacity
  simp only [entriesOf, List.length_map] at size
  by_cases full : Full t
  · have full' : ¬ t.hdr.elements + t.hdr.deleted + 1 ≤ t.hdr.capacity := by
      simp only [Full] at full
      omega
    have newCap : computeCapacity t.hdr.capacity = t.hdr.capacity * 2 + 1 :=
      if_pos (by simp only [minCapacity]; omega)
    have after : (fill t).grown = ⟨t.hdr.elements, 0, t.hdr.capacity * 2 + 1⟩ := by
      rw [← newCap]
      exact if_pos full
    rw [growCapacity, after]
    simp only [numberOfElements_eq, numberOfDeletedElements_eq, capacity_eq, if_neg full', newCap,
      full, decide_true]
    by_cases deleted : t.hdr.deleted = 0
    · have run : ∀ len, t.adjustTaggedTree len = some ⟨t.toTaggedArray.extendArray len⟩ := fun len => by
        rw [adjustTaggedTree, numberOfDeletedElements_eq, if_pos deleted]
      refine ⟨_, T, by rw [run]; rfl, ⟨?_, table.balanced, ?_⟩, rfl, ?_, ?_, by simp, ?_⟩
      · refine Encodes_hdr table.encodes ?_ ?_
        · simp [extend_hdr table.storage]
        · simp [extend_cells table.storage]
      · have s := table.storage
        constructor <;> simp only [hdr_setCapacity, cells_setCapacity, extend_hdr s, extend_cells s]
        · exact s.elements
        · exact s.deleted
        · exact s.used
        · intro e he
          have := s.inside e he
          omega
        · exact s.unused
        · omega
        · intro e he
          exact s.outside e (by omega)
        · exact s.below
      · simp only [hdr_setCapacity, extend_hdr table.storage]
        omega
      · simp [extend_hdr table.storage, deleted]
      · simp only [fill, hdr_setCapacity, extend_hdr table.storage, deleted]
    · obtain ⟨newTree, T', run, table', same, compare, elements, gone⟩ :=
        compact_table (t.hdr.capacity * 2 + 1) table nonempty deleted (by omega)
          (by omega)
      refine ⟨newTree.setCapacity (t.hdr.capacity * 2 + 1), T', ?_, table', same, ?_, ?_, by simp, ?_⟩
      · rw [run]; rfl
      · simp only [hdr_setCapacity, elements, gone]
        omega
      · simp [deleted, compare]
      · simp only [fill, hdr_setCapacity, elements, gone, size]
  · have room : t.hdr.elements + t.hdr.deleted + 1 ≤ t.hdr.capacity := by
      simp only [Full] at full
      omega
    refine ⟨t, T, ?_, table, rfl, by omega, by simp [full], fun _ => ⟨rfl, rfl⟩, (if_neg full).symm⟩
    rw [growCapacity]
    simp [room, full]

theorem growCapacity_fill {t : TaggedTree d α} (table : Table t T) (nonempty : T ≠ .nil) {g : Grown d α}
    (grown : t.growCapacity = some g) : fill g.table = (fill t).grown := by
  obtain ⟨newTree, T', run, -, -, -, -, -, counters⟩ := growCapacity_spec table nonempty
  rw [run] at grown
  cases grown
  exact counters

end TaggedTree

end ArkRuntime
