import ArkRuntime.LinkedHash.Update

/-!
# `Rehash`

The entries that are not removed go into the new table, in their order. In the old table the chain
slot of each removed entry becomes the number of removed entries up to it, from which
`GetDeletedElementsAt` reads how many entries before a place were removed.
-/

namespace ArkRuntime

namespace LinkedHash

variable {d : HashDerived} {α : Type} {rt : HashRuntime α} {t : LinkedHashTable d α}
  {slots : List (Slot α)}

open LinkedHashTable

/-- The slots without those of removed entries. -/
def compact (slots : List (Slot α)) : List (Slot α) := slots.reduceOption.map some

/-- The number of removed entries. -/
def holes (slots : List (Slot α)) : Nat := slots.length - slots.reduceOption.length

@[simp] theorem reduceOption_compact (slots : List (Slot α)) :
    (compact slots).reduceOption = slots.reduceOption := by
  unfold compact
  induction slots.reduceOption with
  | nil => rfl
  | cons p ps ih => rw [List.map_cons, List.reduceOption_cons_of_some, ih]

@[simp] theorem length_compact (slots : List (Slot α)) :
    (compact slots).length = slots.reduceOption.length := by
  simp [compact]

theorem compact_concat (slots : List (Slot α)) (p : JSTaggedValue α × JSTaggedValue α) :
    compact (slots ++ [some p]) = compact slots ++ [some p] := by
  simp [compact, List.reduceOption_append]

theorem holes_add (slots : List (Slot α)) :
    holes slots + slots.reduceOption.length = slots.length := by
  have := List.reduceOption_length_le slots
  unfold holes
  omega

theorem holes_concat_none (slots : List (Slot α)) : holes (slots ++ [none]) = holes slots + 1 := by
  have all := holes_add (slots ++ [none])
  have old := holes_add slots
  simp only [List.reduceOption_append, List.length_append, List.length_singleton] at all
  have empty : ([none] : List (Slot α)).reduceOption = [] := rfl
  rw [empty, List.length_nil] at all
  omega

theorem holes_concat_some (slots : List (Slot α)) (p : JSTaggedValue α × JSTaggedValue α) :
    holes (slots ++ [some p]) = holes slots := by
  have all := holes_add (slots ++ [some p])
  have old := holes_add slots
  simp only [List.reduceOption_append, List.length_append, List.length_singleton] at all
  have one : [some p].reduceOption = [p] := rfl
  rw [one, List.length_singleton] at all
  omega

theorem take_slot {e : Nat} {s : Slot α} (here : slots[e]? = some s) :
    slots.take (e + 1) = slots.take e ++ [s] := by
  rw [List.take_add_one, here]
  rfl

/-- The state of `Rehash` before the round of entry `i`. -/
structure Rehashing (rt : HashRuntime α) (t : LinkedHashTable d α) (slots : List (Slot α))
    (capacity : Int) (address i : Nat) (s : RehashState d α) : Prop where
  table : s.table.view = { t.view with next := s.table.view.next }
  nextTable : s.table.nextTable = some address
  counts : ∀ j < i, slots[j]? = some none → s.table.getNextEntry j = .int (holes (slots.take (j + 1)))
  deleted : s.currentDeletedElements = holes (slots.take i)
  desEntry : s.desEntry = (slots.take i).reduceOption.length
  filled : Filled rt s.newTable.view (compact (slots.take i))
  capacity : s.newTable.capacity = capacity
  current : s.newTable.nextTable = none

theorem rehashEntry_removed {capacity : Int} {address i : Nat} {s : RehashState d α}
    (enc : Encodes rt t slots) (inv : Rehashing rt t slots capacity address i s)
    (here : slots[i]? = some none) :
    Rehashing rt t slots capacity address (i + 1) (rehashEntry rt i s) := by
  have hole : s.table.getElement (s.table.entryToIndex i) = .hole := by
    have same : s.table.view.key i = t.view.key i := by rw [inv.table]
    exact same.trans (enc.filled.holds.dead here)
  have room : 0 ≤ s.table.capacity := by
    have same : s.table.capacity = t.capacity := congrArg (·.capacity) inv.table
    rw [same]
    exact enc.nonneg
  have taken := take_slot here
  have view := view_setEntry (t := s.table) room (Nat.le_refl _) i
    (.int ((s.currentDeletedElements + 1 : Nat) : Int))
  have notFirst : ¬ d.entrySize = 0 := by cases d <;> simp [HashDerived.entrySize]
  have notValue : ¬ d.entrySize = valueOffset d := by
    have := valueOffset_lt d
    omega
  simp only [notFirst, notValue, if_true, if_false] at view
  have next (j : Nat) : (s.table.setDeletedNum i (s.currentDeletedElements + 1 : Nat)).getNextEntry j =
      Function.update s.table.view.next i (.int ((s.currentDeletedElements + 1 : Nat) : Int)) j :=
    congrFun (congrArg (·.next) view) j
  simp only [rehashEntry, hole, JSTaggedValue.isHole_hole, if_true]
  refine ⟨?_, inv.nextTable, ?_, ?_, ?_, ?_, inv.capacity, inv.current⟩
  · have rest := inv.table
    simp only [setDeletedNum, setNextEntry]
    rw [view]
    simp only
    rw [rest]
  · intro j below dead
    rw [next]
    rcases Nat.lt_succ_iff_lt_or_eq.mp below with below | rfl
    · rw [Function.update_of_ne (by omega)]
      exact inv.counts j below dead
    · rw [Function.update_self, taken, holes_concat_none, inv.deleted]
  · rw [taken, holes_concat_none, inv.deleted]
  · rw [inv.desEntry, taken, List.reduceOption_append]
    simp
  · have same : compact (slots.take (i + 1)) = compact (slots.take i) := by
      rw [taken, compact, compact, List.reduceOption_append]
      simp
    rw [same]
    exact inv.filled

theorem rehashEntry_live {capacity : Int} {address i : Nat} {s : RehashState d α}
    {k x : JSTaggedValue α} (enc : Encodes rt t slots)
    (inv : Rehashing rt t slots capacity address i s) (here : slots[i]? = some (some (k, x)))
    (fits : (slots.reduceOption.length : Int) ≤ capacity) :
    Rehashing rt t slots capacity address (i + 1) (rehashEntry rt i s) := by
  obtain ⟨hkey, hvalue, isKey⟩ := enc.filled.holds.live here
  have key : s.table.getElement (s.table.entryToIndex i) = k := by
    have same : s.table.view.key i = t.view.key i := by rw [inv.table]
    exact same.trans hkey
  have value : s.table.getElement (s.table.entryToIndex i + valueOffset d) = x := by
    have same : s.table.view.value i = t.view.value i := by rw [inv.table]
    rw [← getValue_eq]
    exact same.trans hvalue
  have taken := take_slot here
  have noHole : k.isHole = false := JSTaggedValue.isHole_eq_false.mpr isKey
  -- The new entry has a place in the new table.
  have free : ((slots.take i).reduceOption.length : Int) < capacity := by
    have more := congrArg List.reduceOption (List.take_append_drop (i + 1) slots)
    rw [taken, List.reduceOption_append, List.reduceOption_append] at more
    have count := congrArg List.length more
    simp only [List.length_append, List.reduceOption_singleton, Option.toList_some,
      List.length_singleton] at count
    omega
  have length : s.desEntry = (compact (slots.take i)).length := by
    rw [inv.desEntry, length_compact]
  have inside := bucketOf_lt inv.filled.room (rt.hash k)
  have view1 := view_insertNewEntry (t := s.newTable) inside s.desEntry
  have next1 := nextTable_insertNewEntry s.newTable (bucketOf s.newTable.capacity (rt.hash k)) s.desEntry
  have bucket : s.newTable.hashToBucket (rt.hash k) = bucketOf s.newTable.capacity (rt.hash k) := rfl
  simp only [rehashEntry, key, noHole, if_false, Bool.false_eq_true, bucket]
  have cap : s.newTable.view.capacity = s.newTable.capacity := rfl
  rw [cap] at view1
  generalize s.newTable.insertNewEntry (bucketOf s.newTable.capacity (rt.hash k)) s.desEntry = t1
    at view1 next1
  have capacity1 : t1.capacity = s.newTable.capacity := congrArg (·.capacity) view1
  have room1 : 0 ≤ t1.capacity := by
    rw [capacity1, inv.capacity]
    omega
  have view2 := view_putEntry room1 s.desEntry fun j =>
    s.table.getElement (s.table.entryToIndex i + j)
  have next2 := nextTable_putEntry t1 (t1.entryToIndex s.desEntry) d.entrySize fun j =>
    s.table.getElement (s.table.entryToIndex i + j)
  generalize forLoop (fun j (newTable : LinkedHashTable d α) =>
    newTable.setElement (t1.entryToIndex s.desEntry + j)
      (s.table.getElement (s.table.entryToIndex i + j))) d.entrySize t1 = t2 at view2 next2
  rw [view1] at view2
  have zero : s.table.getElement (s.table.entryToIndex i + (0 : Nat)) = k := by simpa using key
  simp only [zero, value] at view2
  refine ⟨inv.table, inv.nextTable, ?_, ?_, ?_, ?_, ?_, ?_⟩
  · intro j below dead
    rcases Nat.lt_succ_iff_lt_or_eq.mp below with below | rfl
    · exact inv.counts j below dead
    · rw [here] at dead
      cases dead
  · rw [taken, holes_concat_some]
    exact inv.deleted
  · simp only [taken, List.reduceOption_append, inv.desEntry, List.length_append]
    simp
  · rw [taken, compact_concat, view2, length]
    refine (inv.filled.append isKey ?_).congr rfl rfl rfl rfl rfl
    rw [length_compact, cap, inv.capacity]
    exact free
  · have same : t2.capacity = s.newTable.capacity := congrArg (·.capacity) view2
    rw [same]
    exact inv.capacity
  · rw [next2, next1]
    exact inv.current

/-- A table that was replaced: it names the next one and counts its removed entries. -/
structure Retired (t : LinkedHashTable d α) (slots : List (Slot α)) (address : Nat) : Prop where
  nextTable : t.nextTable = some address
  deletedAt : ∀ i ≤ slots.length, t.getDeletedElementsAt i = holes (slots.take i)

theorem deletedElementsBelow_eq {i : Nat} (below : i ≤ slots.length) (holds : Holds t.view slots)
    (counts : ∀ j < i, slots[j]? = some none →
      t.getNextEntry j = .int (holes (slots.take (j + 1)))) :
    t.deletedElementsBelow i = holes (slots.take i) := by
  induction i with
  | zero => rfl
  | succ i ih =>
    have slot : slots[i]? = some (slots.get ⟨i, by omega⟩) := List.getElem?_eq_getElem (by omega)
    rw [deletedElementsBelow]
    rcases content : slots.get ⟨i, by omega⟩ with _ | ⟨k, x⟩
    · rw [content] at slot
      have dead : t.getKey i = .hole := holds.dead slot
      rw [dead, JSTaggedValue.isHole_hole, if_pos rfl, getDeletedNum, counts i (by omega) slot]
      rfl
    · rw [content] at slot
      obtain ⟨same, -, isKey⟩ := holds.live slot
      have live : t.getKey i = k := same
      have noHole := JSTaggedValue.isHole_eq_false.mpr isKey
      rw [live, noHole, if_neg Bool.false_ne_true, take_slot slot, holes_concat_some]
      exact ih (by omega) fun j less => counts j (by omega)

theorem rehash_spec (address : Nat) {n : Nat} (enc : Encodes rt t slots) (room : 0 < n)
    (fits : slots.reduceOption.length ≤ n) :
    Retired (rehash rt t (create d n) address).1 slots address ∧
      Encodes rt (rehash rt t (create d n) address).2 (compact slots) ∧
      (rehash rt t (create d n) address).2.capacity = n := by
  have all : (t.numberOfElements + t.numberOfDeletedElements).toNat = slots.length := by
    rw [enc.elements, enc.deleted]
    omega
  have empty : Encodes rt (create d n) [] := create_encodes room
  have done : Rehashing rt t slots n address slots.length
      (forLoop (rehashEntry rt) slots.length ⟨t.setNextTable address, create d n, 0, 0⟩) := by
    apply forLoop_spec (I := fun i s => Rehashing rt t slots n address i s)
    · exact ⟨rfl, rfl, by simp, rfl, rfl, empty.filled, rfl, rfl⟩
    · intro i s below inv
      have slot : slots[i]? = some (slots.get ⟨i, below⟩) := List.getElem?_eq_getElem below
      rcases content : slots.get ⟨i, below⟩ with _ | ⟨k, x⟩
      · exact rehashEntry_removed enc inv (by rw [slot, content])
      · exact rehashEntry_live enc inv (by rw [slot, content]) (by omega)
  simp only [rehash, all]
  generalize forLoop (rehashEntry rt) slots.length ⟨t.setNextTable address, create d n, 0, 0⟩ = s
    at done
  have elements : s.table.numberOfElements = t.numberOfElements := congrArg (·.elements) done.table
  have deleted : s.table.numberOfDeletedElements = t.numberOfDeletedElements :=
    congrArg (·.deleted) done.table
  have count := holes_add slots
  refine ⟨⟨done.nextTable, fun i below => ?_⟩, ?_⟩
  · have holds : Holds s.table.view slots := by
      rw [done.table]
      exact ⟨enc.filled.holds.live, enc.filled.holds.dead⟩
    rw [getDeletedElementsAt, deleted, enc.deleted, if_neg (by omega), Int.toNat_natCast]
    exact deletedElementsBelow_eq below holds fun j less => done.counts j (by omega)
  · have room1 : 0 ≤ s.newTable.capacity := by
      rw [done.capacity]
      omega
    have view1 := view_setNumberOfElements room1 s.table.numberOfElements
    have room2 : 0 ≤ (s.newTable.setNumberOfElements s.table.numberOfElements).capacity := by
      have same : (s.newTable.setNumberOfElements s.table.numberOfElements).capacity =
          s.newTable.capacity := congrArg (·.capacity) view1
      rw [same]
      exact room1
    have view2 := view_setNumberOfDeletedElements room2 0
    rw [view1] at view2
    have filled := done.filled
    rw [List.take_length] at filled
    refine ⟨⟨?_, ?_, ?_, ?_, done.current, ?_⟩, ?_⟩
    · rw [view2]
      exact filled.congr rfl rfl rfl rfl rfl
    · refine (congrArg (·.elements) view2).trans ?_
      rw [reduceOption_compact, ← enc.elements]
      exact elements
    · refine (congrArg (·.deleted) view2).trans ?_
      rw [reduceOption_compact, length_compact]
      simp
    · rw [reduceOption_compact]
      exact enc.distinct
    · rw [reduceOption_compact]
      exact enc.sets
    · exact (congrArg (·.capacity) view2).trans done.capacity

end LinkedHash

end ArkRuntime
