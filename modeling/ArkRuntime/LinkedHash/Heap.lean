import ArkRuntime.LinkedHash.Rehash

/-!
# Operations in the heap of tables

`GrowCapacity` and `Shrink` either leave the table where it is or replace it by a compact copy
(`Moved`). With that, one lemma for each operation says what it does to the slots of the table.
-/

namespace ArkRuntime

namespace LinkedHash

variable {d : HashDerived} {α : Type} {rt : HashRuntime α} {h : TableHeap d α} {a : Nat}
  {slots : List (Slot α)}

open LinkedHashTable

/-- The table stays where it is, or the next free address gets a copy without the removed entries;
    the other tables are left alone. -/
inductive Moved (h : TableHeap d α) (a : Nat) (slots : List (Slot α)) :
    TableHeap d α → Nat → List (Slot α) → Prop where
  | stayed : Moved h a slots h a slots
  | rehashed {h' : TableHeap d α} : h'.size = h.size + 1 →
      (∀ b, b ≠ a → b < h.size → h'.table b = h.table b) → Retired (h'.table a) slots h.size →
      Moved h a slots h' h.size (compact slots)

theorem Moved.reduceOption {h' : TableHeap d α} {a' : Nat} {slots' : List (Slot α)}
    (moved : Moved h a slots h' a' slots') : slots'.reduceOption = slots.reduceOption := by
  cases moved with
  | stayed => rfl
  | rehashed => exact reduceOption_compact slots

theorem lt_computeCapacity (rt : HashRuntime α) (n : Nat) : n < computeCapacity rt n := by
  have large := rt.le_powerOfTwo (n + (n >>> 1))
  have least : minCapacity = 4 := rfl
  simp only [computeCapacity]
  generalize rt.getPowerOfTwoValue32 (n + (n >>> 1)) = capacity at large
  by_cases more : capacity > minCapacity
  · rw [if_pos more]
    omega
  · rw [if_neg more]
    omega

/-- A new table takes over. -/
theorem rehash_moved {n : Nat} (enc : Encodes rt (h.table a) slots) (allocated : a < h.size)
    (room : 0 < n) (fits : slots.reduceOption.length ≤ n) :
    Moved h a slots ((h.create n).1.rehash rt a (h.create n).2) (h.create n).2 (compact slots) ∧
      Encodes rt (((h.create n).1.rehash rt a (h.create n).2).table (h.create n).2) (compact slots) ∧
      (((h.create n).1.rehash rt a (h.create n).2).table (h.create n).2).capacity = n := by
  obtain ⟨retired, enc', capacity⟩ := rehash_spec h.size enc room fits
  have old : Function.update h.table h.size (LinkedHashTable.create d n) a = h.table a :=
    Function.update_of_ne (by omega) _ _
  have apart : a ≠ h.size := by omega
  simp only [TableHeap.create, TableHeap.rehash, TableHeap.write, Function.update_self, old]
  refine ⟨Moved.rehashed rfl (fun b other below => ?_) ?_, enc', capacity⟩
  · simp only
    rw [Function.update_of_ne (by omega), Function.update_of_ne other,
      Function.update_of_ne (by omega)]
  · simp only
    rw [Function.update_of_ne apart, Function.update_self]
    exact retired

/-- `GrowCapacity` leaves room for one more entry. -/
theorem growCapacity_spec (enc : Encodes rt (h.table a) slots) (allocated : a < h.size) :
    ∃ slots', Moved h a slots (h.growCapacity rt a 1).1 (h.growCapacity rt a 1).2 slots' ∧
      Encodes rt ((h.growCapacity rt a 1).1.table (h.growCapacity rt a 1).2) slots' ∧
      (slots'.length : Int) < ((h.growCapacity rt a 1).1.table (h.growCapacity rt a 1).2).capacity := by
  have elements := enc.elements
  have deleted := enc.deleted
  have count := holes_add slots
  unfold TableHeap.growCapacity
  by_cases enough : (h.table a).hasSufficientCapacity 1 = true
  · rw [if_pos enough]
    refine ⟨slots, .stayed, enc, ?_⟩
    simp only [hasSufficientCapacity] at enough
    split_ifs at enough with free
    change (slots.length : Int) < (h.table a).capacity
    omega
  · rw [if_neg enough]
    have needed : ((h.table a).numberOfElements + 1).toNat = slots.reduceOption.length + 1 := by
      omega
    have large := lt_computeCapacity rt (slots.reduceOption.length + 1)
    rw [needed]
    obtain ⟨moved, enc', capacity⟩ := rehash_moved enc allocated
      (n := computeCapacity rt (slots.reduceOption.length + 1)) (by omega) (by omega)
    refine ⟨compact slots, moved, enc', ?_⟩
    simp only [capacity, length_compact]
    omega

/-- `Shrink` keeps the entries. -/
theorem shrink_spec (enc : Encodes rt (h.table a) slots) (allocated : a < h.size)
    (additionalCapacity : Nat) :
    ∃ slots', Moved h a slots (h.shrink rt a additionalCapacity).1
        (h.shrink rt a additionalCapacity).2 slots' ∧
      Encodes rt ((h.shrink rt a additionalCapacity).1.table (h.shrink rt a additionalCapacity).2)
        slots' := by
  simp only [TableHeap.shrink, computeCapacityWithShrink]
  have elements := enc.elements
  have atLeast : ((h.table a).numberOfElements + additionalCapacity).toNat =
      slots.reduceOption.length + additionalCapacity := by
    omega
  have large := lt_computeCapacity rt (slots.reduceOption.length + additionalCapacity)
  rw [atLeast]
  by_cases many : (h.table a).numberOfElements + additionalCapacity > (h.table a).capacity / 4
  · simp only [many, if_true]
    exact ⟨slots, .stayed, enc⟩
  · by_cases small : computeCapacity rt (slots.reduceOption.length + additionalCapacity) <
        minShrinkCapacity
    · simp only [many, small, if_true, if_false]
      exact ⟨slots, .stayed, enc⟩
    · simp only [many, small, if_false]
      by_cases same : ((computeCapacity rt (slots.reduceOption.length + additionalCapacity) : Nat) :
          Int) = (h.table a).capacity
      · simp only [same, if_true]
        exact ⟨slots, .stayed, enc⟩
      · simp only [same, if_false, Int.toNat_natCast]
        obtain ⟨moved, enc', -⟩ := rehash_moved enc allocated
          (n := computeCapacity rt (slots.reduceOption.length + additionalCapacity)) (by omega)
          (by omega)
        exact ⟨compact slots, moved, enc'⟩

/-- `Insert` sets the value of the entry that has the key, or adds an entry at the end. -/
theorem insert_spec {key value : JSTaggedValue α} (enc : Encodes rt (h.table a) slots)
    (allocated : a < h.size) (isKey : key ≠ .hole) (sets : d = .set → value = key) :
    (∃ (e : Nat) (k x : JSTaggedValue α) (t' : LinkedHashTable d α),
      slots[e]? = some (some (k, x)) ∧ rt.sameValueZero key k = true ∧
      h.insert rt a key value = some (h.write a t', a) ∧
      Encodes rt t' (slots.set e (some (withValue d k value)))) ∨
    ((∀ p ∈ slots.reduceOption, rt.sameValueZero key p.1 = false) ∧
      ∃ (h' : TableHeap d α) (a' : Nat) (slots' : List (Slot α)) (t' : LinkedHashTable d α),
        Moved h a slots h' a' slots' ∧ Encodes rt (h'.table a') slots' ∧
        h.insert rt a key value = some (h'.write a' t', a') ∧
        Encodes rt t' (slots' ++ [some (key, value)])) := by
  obtain ⟨entry, found, answer⟩ := findElement_spec enc.filled key
  rcases answer with ⟨rfl, fresh⟩ | ⟨e, k, x, rfl, here, same⟩
  · refine .inr ⟨fresh, ?_⟩
    obtain ⟨slots', moved, enc', free⟩ := growCapacity_spec enc allocated
    have fresh' : ∀ p ∈ slots'.reduceOption, rt.sameValueZero key p.1 = false := by
      rw [moved.reduceOption]
      exact fresh
    refine ⟨_, _, slots', _, moved, enc', ?_, insertAtEnd_encodes enc' isKey fresh' free sets⟩
    simp [TableHeap.insert, found]
  · refine .inl ⟨e, k, x, (h.table a).setValue e value, here, same, ?_, ?_⟩
    · have isEntry : (e : Int) ≠ -1 := by omega
      simp [TableHeap.insert, found, isEntry]
    · refine setValue_encodes enc here fun isSet => ?_
      rw [sets isSet]
      exact ⟨isKey, same⟩

/-- `JSMap::Delete` removes the entry that has the key. -/
theorem delete_spec (enc : Encodes rt (h.table a) slots) (key : JSTaggedValue α) :
    (∃ (e : Nat) (k x : JSTaggedValue α) (t' : LinkedHashTable d α),
      slots[e]? = some (some (k, x)) ∧ rt.sameValueZero key k = true ∧
      h.delete rt a key = some (h.write a t', true) ∧ Encodes rt t' (slots.set e none)) ∨
    ((∀ p ∈ slots.reduceOption, rt.sameValueZero key p.1 = false) ∧
      h.delete rt a key = some (h, false)) := by
  obtain ⟨entry, found, answer⟩ := findElement_spec enc.filled key
  rcases answer with ⟨rfl, fresh⟩ | ⟨e, k, x, rfl, here, same⟩
  · exact .inr ⟨fresh, by simp [TableHeap.delete, found]⟩
  · have isEntry : ¬ (e : Int) = -1 := by omega
    refine .inl ⟨e, k, x, (h.table a).removeEntry e, here, same, ?_, removeEntry_encodes enc here⟩
    simp [TableHeap.delete, found, isEntry]

/-- `Remove` is `Delete` and, if the key was there, `Shrink`. -/
theorem remove_eq_delete (h : TableHeap d α) (a : Nat) (key : JSTaggedValue α) :
    h.remove rt a key = (h.delete rt a key).map fun r =>
      if r.2 then r.1.shrink rt a 0 else (r.1, a) := by
  unfold TableHeap.remove TableHeap.delete
  cases (h.table a).findElement rt key with
  | none => rfl
  | some entry => by_cases missing : entry = -1 <;> simp [missing]

/-- `Clear` makes a new table; every place of the old one leads to its start. -/
theorem clear_spec (enc : Encodes rt (h.table a) slots) (allocated : a < h.size) :
    (h.clear a).2 = h.size ∧ (h.clear a).1.size = h.size + 1 ∧
      (∀ b, b ≠ a → b < h.size → (h.clear a).1.table b = h.table b) ∧
      Encodes rt ((h.clear a).1.table h.size) [] ∧
      ((h.clear a).1.table a).nextTable = some h.size ∧
      ∀ i, ((h.clear a).1.table a).getDeletedElementsAt i = i := by
  have old : Function.update h.table h.size (LinkedHashTable.create d minCapacity) a = h.table a :=
    Function.update_of_ne (by omega) _ _
  have apart : h.size ≠ a := by omega
  have room : (h.table a).capacity > 0 := enc.filled.room
  have view := view_setNumberOfDeletedElements (t := (h.table a).setNextTable h.size)
    enc.nonneg (-1)
  have marked : (((h.table a).setNextTable h.size).setNumberOfDeletedElements
      (-1)).numberOfDeletedElements = -1 := congrArg (·.deleted) view
  simp only [TableHeap.clear, TableHeap.create, TableHeap.write, old, room, if_true]
  refine ⟨trivial, trivial, fun b other below => ?_, ?_, ?_, fun i => ?_⟩
  · rw [Function.update_of_ne other, Function.update_of_ne (by omega)]
  · rw [Function.update_of_ne apart, Function.update_self]
    exact create_encodes (by decide)
  · rw [Function.update_self]
    rfl
  · rw [Function.update_self, getDeletedElementsAt, marked, if_pos rfl]

end LinkedHash

end ArkRuntime
