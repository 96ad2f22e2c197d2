import ArkRuntime.LinkedHash.Heap
import ArkRuntime.Misc.Run
import ArkRuntime.Misc.Entries
import Mathlib.Data.Nat.Log

/-!
# A hash table is an insertion-ordered map

The abstract map is the list of its entries in the order of their insertion. Setting a key that is
there changes its value in place, a new key goes to the end, and a removed key that comes back goes to
the end again. Every run of the operations of a table refines the run of these operations on lists.
-/

namespace ArkRuntime

namespace LinkedHash

open LinkedHashTable

variable {d : HashDerived} {α : Type}

/-! ## The abstract map -/

section Entries

variable (rt : HashRuntime α)

/-- The value of a key is set, or the key is added at the end. -/
def insertEntry (d : HashDerived) (entries : List (JSTaggedValue α × JSTaggedValue α))
    (key value : JSTaggedValue α) : List (JSTaggedValue α × JSTaggedValue α) :=
  upsert (fun p => rt.sameValueZero key p.1) (fun p => withValue d p.1 value) (key, value) entries

def eraseKey (entries : List (JSTaggedValue α × JSTaggedValue α)) (key : JSTaggedValue α) :
    List (JSTaggedValue α × JSTaggedValue α) :=
  discard (fun p => rt.sameValueZero key p.1) entries

variable {rt} {as bs : List (JSTaggedValue α × JSTaggedValue α)} {key k x : JSTaggedValue α}

/-- The entries beside that of a key have other keys. -/
theorem others_of_distinct (distinct : DistinctKeys rt (as ++ (k, x) :: bs))
    (same : rt.sameValueZero key k = true) :
    (∀ p ∈ as, rt.sameValueZero key p.1 = false) ∧ ∀ p ∈ bs, rt.sameValueZero key p.1 = false := by
  unfold DistinctKeys at distinct
  simp only [List.pairwise_append, List.pairwise_cons, List.mem_cons, forall_eq_or_imp] at distinct
  obtain ⟨-, ⟨after, -⟩, before⟩ := distinct
  constructor
  · intro p live
    by_contra other
    have again := (before p live).1
    rw [rt.trans _ _ _ (rt.symm _ _ (by simpa using other)) same] at again
    cases again
  · intro p live
    by_contra other
    have again := after p live
    rw [rt.trans _ _ _ (rt.symm _ _ same) (by simpa using other)] at again
    cases again

end Entries

/-! ## Runs -/

/-- The operations on a table; `delete` is the one of `JSMap` and `JSSet`, which does not shrink. -/
inductive HashOp (α : Type) where
  | insert (key value : JSTaggedValue α)
  | remove (key : JSTaggedValue α)
  | delete (key : JSTaggedValue α)
  | shrink (additionalCapacity : Nat)
  | clear
  deriving DecidableEq, Repr

/-- A Hole is no key, and `LinkedHashSet::Add` inserts the key as its own value. -/
def HashOp.Valid (d : HashDerived) : HashOp α → Prop
  | .insert key value => key ≠ .hole ∧ (d = .set → value = key)
  | _ => True

instance [DecidableEq α] (op : HashOp α) : Decidable (op.Valid d) := by
  cases op <;> unfold HashOp.Valid <;> infer_instance

/-- The heap and the table in use. -/
structure HashState (d : HashDerived) (α : Type) where
  heap : TableHeap d α
  address : Nat

/-- The table in use. -/
def HashState.table (s : HashState d α) : LinkedHashTable d α := s.heap.table s.address

/-- `LinkedHashMap::Create` and `LinkedHashSet::Create` in an empty heap. -/
def HashState.create (d : HashDerived) (numberOfElements : Nat) : HashState d α :=
  ⟨⟨1, fun _ => .create d numberOfElements⟩, 0⟩

def HashOp.step (rt : HashRuntime α) (s : HashState d α) : HashOp α → Option (HashState d α)
  | .insert key value => (s.heap.insert rt s.address key value).map fun r => ⟨r.1, r.2⟩
  | .remove key => (s.heap.remove rt s.address key).map fun r => ⟨r.1, r.2⟩
  | .delete key => (s.heap.delete rt s.address key).map fun r => ⟨r.1, s.address⟩
  | .shrink additionalCapacity =>
      some ⟨(s.heap.shrink rt s.address additionalCapacity).1,
        (s.heap.shrink rt s.address additionalCapacity).2⟩
  | .clear => some ⟨(s.heap.clear s.address).1, (s.heap.clear s.address).2⟩

/-- The operations on the abstract map. -/
def HashOp.apply (rt : HashRuntime α) (d : HashDerived)
    (entries : List (JSTaggedValue α × JSTaggedValue α)) :
    HashOp α → List (JSTaggedValue α × JSTaggedValue α)
  | .insert key value => insertEntry rt d entries key value
  | .remove key => eraseKey rt entries key
  | .delete key => eraseKey rt entries key
  | .shrink _ => entries
  | .clear => []

/-- The table in use stands for slots with the given entries. -/
def Represents (rt : HashRuntime α) (s : HashState d α)
    (entries : List (JSTaggedValue α × JSTaggedValue α)) : Prop :=
  s.address < s.heap.size ∧ ∃ slots, Encodes rt s.table slots ∧ slots.reduceOption = entries

section Steps

variable {rt : HashRuntime α} {s : HashState d α}
  {entries : List (JSTaggedValue α × JSTaggedValue α)}

theorem Moved.allocated {h h' : TableHeap d α} {a a' : Nat} {slots slots' : List (Slot α)}
    (moved : Moved h a slots h' a' slots') (allocated : a < h.size) : a' < h'.size := by
  cases moved with
  | stayed => exact allocated
  | rehashed size => omega

theorem represents_write {h : TableHeap d α} {a : Nat} {t : LinkedHashTable d α}
    {slots : List (Slot α)} (allocated : a < h.size) (enc : Encodes rt t slots) :
    Represents rt ⟨h.write a t, a⟩ slots.reduceOption :=
  ⟨allocated, slots, by simpa [HashState.table, TableHeap.write] using enc, rfl⟩

theorem step_insert {key value : JSTaggedValue α} (rep : Represents rt s entries)
    (isKey : key ≠ .hole) (sets : d = .set → value = key) :
    ∃ s', HashOp.step rt s (.insert key value) = some s' ∧
      Represents rt s' (insertEntry rt d entries key value) := by
  obtain ⟨allocated, slots, enc, rfl⟩ := rep
  rcases insert_spec enc allocated isKey sets with ⟨e, k, x, t', here, same, run, enc'⟩ |
    ⟨fresh, h', a', slots', t', moved, -, run, enc'⟩
  · have rep' := represents_write (h := s.heap) allocated enc'
    refine ⟨_, by rw [HashOp.step, run]; rfl, ?_⟩
    obtain ⟨as, bs, rfl, -, set⟩ := split_slot here
    have distinct := enc.distinct
    rw [reduceOption_slot] at distinct
    obtain ⟨before, after⟩ := others_of_distinct distinct same
    rw [set, reduceOption_slot] at rep'
    rw [reduceOption_slot, insertEntry, upsert_present (b := (k, x)) same before after]
    exact rep'
  · have rep' := represents_write (moved.allocated allocated) enc'
    refine ⟨_, by rw [HashOp.step, run]; rfl, ?_⟩
    rw [List.reduceOption_append, moved.reduceOption] at rep'
    rw [insertEntry, upsert_absent fresh]
    exact rep'

theorem step_delete (rep : Represents rt s entries) (key : JSTaggedValue α) :
    ∃ h' found, s.heap.delete rt s.address key = some (h', found) ∧
      Represents rt ⟨h', s.address⟩ (eraseKey rt entries key) := by
  obtain ⟨allocated, slots, enc, rfl⟩ := rep
  rcases delete_spec enc key with ⟨e, k, x, t', here, same, run, enc'⟩ | ⟨fresh, run⟩
  · have rep' := represents_write (h := s.heap) allocated enc'
    refine ⟨_, _, run, ?_⟩
    obtain ⟨as, bs, rfl, -, set⟩ := split_slot here
    have distinct := enc.distinct
    rw [reduceOption_slot] at distinct
    obtain ⟨before, after⟩ := others_of_distinct distinct same
    rw [set, reduceOption_removed] at rep'
    rw [reduceOption_slot, eraseKey, discard_present (b := (k, x)) same before after]
    exact rep'
  · exact ⟨_, _, run, allocated, slots, enc, (discard_absent fresh).symm⟩

theorem step_shrink (rep : Represents rt s entries) (additionalCapacity : Nat) :
    Represents rt ⟨(s.heap.shrink rt s.address additionalCapacity).1,
      (s.heap.shrink rt s.address additionalCapacity).2⟩ entries := by
  obtain ⟨allocated, slots, enc, rfl⟩ := rep
  obtain ⟨slots', moved, enc'⟩ := shrink_spec enc allocated additionalCapacity
  exact ⟨moved.allocated allocated, slots', enc', moved.reduceOption⟩

theorem step_represents (rep : Represents rt s entries) (op : HashOp α) (valid : op.Valid d) :
    ∃ s', op.step rt s = some s' ∧ Represents rt s' (op.apply rt d entries) := by
  cases op with
  | insert key value => exact step_insert rep valid.1 valid.2
  | delete key =>
    obtain ⟨h', found, run, rep'⟩ := step_delete rep key
    exact ⟨⟨h', s.address⟩, by rw [HashOp.step, run]; rfl, rep'⟩
  | remove key =>
    obtain ⟨h', found, run, rep'⟩ := step_delete rep key
    rw [HashOp.step, remove_eq_delete, run]
    cases found with
    | false => exact ⟨⟨h', s.address⟩, rfl, rep'⟩
    | true => exact ⟨_, rfl, step_shrink rep' 0⟩
  | shrink additionalCapacity => exact ⟨_, rfl, step_shrink rep additionalCapacity⟩
  | clear =>
    obtain ⟨allocated, slots, enc, rfl⟩ := rep
    obtain ⟨address, size, -, enc', -⟩ := clear_spec enc allocated
    refine ⟨_, rfl, ?_, [], ?_, rfl⟩
    · simp only [address, size]
      omega
    · simpa only [HashState.table, address] using enc'

end Steps

/-! ## What a table shows of its map -/

/-- The table behaves as the ordered map with the given entries. -/
structure RefinesOrderedMap (rt : HashRuntime α) (s : HashState d α)
    (entries : List (JSTaggedValue α × JSTaggedValue α)) : Prop where
  distinct : DistinctKeys rt entries
  find : ∀ key, ∃ entry, s.table.findElement rt key = some entry ∧
    (entry ≠ -1 ↔ ∃ p ∈ entries, rt.sameValueZero key p.1 = true) ∧
    (entry ≠ -1 → 0 ≤ entry ∧
      entry < s.table.numberOfElements + s.table.numberOfDeletedElements ∧
      rt.sameValueZero key (s.table.getKey entry) = true ∧
      (s.table.getKey entry, s.table.getValue entry) ∈ entries)
  order : (((List.range (s.table.numberOfElements + s.table.numberOfDeletedElements).toNat).filter
      fun e : Nat => !(s.table.getKey e).isHole).map
        fun e : Nat => (s.table.getKey e, s.table.getValue e)) = entries
  chains : ∀ e : Nat, (e : Int) < s.table.numberOfElements + s.table.numberOfDeletedElements →
    (s.table.getKey e).isHole = false →
      InChain s.table (s.table.hashToBucket (rt.hash (s.table.getKey e))) e
  room : ∀ h a, s.heap.growCapacity rt s.address 1 = (h, a) →
    (h.table a).numberOfElements + (h.table a).numberOfDeletedElements < (h.table a).capacity

section Refines

variable {rt : HashRuntime α} {s : HashState d α} {t : LinkedHashTable d α} {slots : List (Slot α)}
  {entries : List (JSTaggedValue α × JSTaggedValue α)}

theorem Encodes.total (enc : Encodes rt t slots) :
    t.numberOfElements + t.numberOfDeletedElements = slots.length := by
  rw [enc.elements, enc.deleted]
  omega

/-- The entries whose key is no Hole, in the order of their places. -/
theorem entries_eq (holds : Holds t.view slots) {n : Nat} (below : n ≤ slots.length) :
    (((List.range n).filter fun e : Nat => !(t.getKey e).isHole).map
      fun e : Nat => (t.getKey e, t.getValue e)) = (slots.take n).reduceOption := by
  induction n with
  | zero => rfl
  | succ n ih =>
    have slot : slots[n]? = some (slots.get ⟨n, by omega⟩) := List.getElem?_eq_getElem (by omega)
    rw [List.range_succ, List.filter_append, List.map_append, ih (by omega)]
    rcases content : slots.get ⟨n, by omega⟩ with _ | ⟨k, x⟩
    · rw [content] at slot
      have dead : t.getKey n = .hole := holds.dead slot
      rw [take_slot slot, List.reduceOption_append]
      simp [dead]
    · rw [content] at slot
      obtain ⟨key, value, isKey⟩ := holds.live slot
      have key : t.getKey n = k := key
      have value : t.getValue n = x := value
      have noHole : k.isHole = false := JSTaggedValue.isHole_eq_false.mpr isKey
      rw [take_slot slot, List.reduceOption_append]
      simp [key, value, noHole]

theorem Represents.refines (rep : Represents rt s entries) : RefinesOrderedMap rt s entries := by
  obtain ⟨allocated, slots, enc, rfl⟩ := rep
  have total := enc.total
  refine ⟨enc.distinct, fun key => ?_, ?_, fun e below noHole => ?_, fun h a grown => ?_⟩
  · obtain ⟨entry, found, answer⟩ := findElement_spec enc.filled key
    refine ⟨entry, found, ?_⟩
    rcases answer with ⟨rfl, fresh⟩ | ⟨e, k, x, rfl, here, same⟩
    · refine ⟨⟨fun no => absurd rfl no, fun ⟨p, live, same⟩ => ?_⟩, fun no => absurd rfl no⟩
      rw [fresh p live] at same
      cases same
    · obtain ⟨hkey, hvalue, -⟩ := enc.filled.holds.live here
      have hkey : s.table.getKey e = k := hkey
      have hvalue : s.table.getValue e = x := hvalue
      have below := lt_of_slot here
      refine ⟨⟨fun _ => ⟨(k, x), mem_of_slot here, same⟩, fun _ => by omega⟩, fun _ => ?_⟩
      rw [hkey, hvalue]
      exact ⟨by omega, by omega, same, mem_of_slot here⟩
  · have order := entries_eq enc.filled.holds (Nat.le_refl _)
    rw [List.take_length] at order
    rw [total, Int.toNat_natCast]
    exact order
  · have slot : slots[e]? = some (slots.get ⟨e, by omega⟩) := List.getElem?_eq_getElem (by omega)
    rcases content : slots.get ⟨e, by omega⟩ with _ | ⟨k, x⟩
    · rw [content] at slot
      have dead : s.table.getKey e = .hole := enc.filled.holds.dead slot
      rw [dead] at noHole
      cases noHole
    · rw [content] at slot
      have key : s.table.getKey e = k := (enc.filled.holds.live slot).1
      rw [key]
      exact inChain_of_slot enc.filled slot
  · obtain ⟨slots', -, enc', free⟩ := growCapacity_spec enc allocated
    rw [grown] at enc' free
    rw [enc'.total]
    exact free

end Refines

/-- Every run of a new table refines the run of the ordered map. -/
theorem linkedHashTable_refines_of_run (rt : HashRuntime α) (d : HashDerived) {capacity : Nat}
    (room : 0 < capacity) (ops : List (HashOp α)) (valid : ∀ op ∈ ops, op.Valid d) :
    ∃ s, run (HashOp.step rt) (HashState.create d capacity) ops = some s ∧
      RefinesOrderedMap rt s (ops.foldl (HashOp.apply rt d) []) := by
  have start : Represents rt (HashState.create d capacity) [] :=
    ⟨Nat.zero_lt_one, [], create_encodes room, rfl⟩
  obtain ⟨s, reached, rep⟩ := run_refines (R := Represents rt) (f := HashOp.apply rt d)
    (fun s entries op rep => step_represents rep op) ops _ [] start (allowed_of_forall valid)
  exact ⟨s, reached, rep.refines⟩

/-- Keys that match only if they are identical, all in one bucket, and the powers of two. -/
def oneBucket (α : Type) [DecidableEq α] : HashRuntime α where
  sameValueZero x y := decide (x = y)
  hash _ := 0
  getPowerOfTwoValue32 n := 2 ^ Nat.clog 2 n
  refl := by simp
  symm := by simp +contextual
  trans := by simp +contextual
  hole := by simp +contextual
  hash_eq := by simp
  le_powerOfTwo n := Nat.le_pow_clog Nat.one_lt_two n

/-- The third key makes the table grow; the removed key comes back at the end. -/
theorem linkedHashTable_refines_of_run_grown :
    ∃ s, run (HashOp.step (oneBucket Unit)) (HashState.create .map 2)
        [.insert (.int 1) (.int 5), .insert (.int 2) (.int 6), .remove (.int 1),
          .insert (.int 3) (.int 7), .insert (.int 1) (.int 8), .insert (.int 2) (.int 9)] = some s ∧
      RefinesOrderedMap (oneBucket Unit) s
        [(.int 2, .int 9), (.int 3, .int 7), (.int 1, .int 8)] :=
  linkedHashTable_refines_of_run (oneBucket Unit) .map (by decide) _ (by decide)

end LinkedHash

end ArkRuntime
