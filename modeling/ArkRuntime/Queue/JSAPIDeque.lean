import ArkRuntime.Queue.JSAPIQueue

/-!
# `JSAPIDeque`

The elements of the deque, from the first on, and what its operations do with them. A deque is laid out as
a `JSAPIQueue` whose length is the way from one end to the other, so that the copy into a larger array
is the one of the queue.
-/

namespace ArkRuntime

namespace JSAPIDeque

variable {α : Type} {deque : JSAPIDeque α} {l : List (JSTaggedValue α)}

/-- The same ring, with its length. -/
def asQueue (deque : JSAPIDeque α) : JSAPIQueue α :=
  ⟨deque.elements, deque.getSize, deque.first, deque.last⟩

def capacity (deque : JSAPIDeque α) : Nat := deque.elements.length.toNat

/-- The deque holds `l`; one slot of the ring is free. -/
def Ring (deque : JSAPIDeque α) (l : List (JSTaggedValue α)) : Prop := deque.asQueue.Ring l

theorem toNat_elementsLength (small : deque.capacity ≤ 2 ^ 27) :
    deque.elementsLength.toNat = deque.capacity := by
  rw [elementsLength, UInt32.toNat_ofNat']
  exact Nat.mod_eq_of_lt (show deque.elements.length.toNat < 2 ^ 32 by unfold capacity at small; omega)

theorem ring_of (room : 8 ≤ deque.capacity) (small : deque.capacity ≤ 2 ^ 27)
    (inside : deque.first.toNat < deque.capacity) (free : l.length < deque.capacity)
    (ends : deque.last.toNat = (deque.first.toNat + l.length) % deque.capacity)
    (content : ringContent (fun i : Nat => deque.elements.get i) deque.capacity deque.first.toNat
      l.length = l) : Ring deque l := by
  have length := toNat_elementsLength small
  refine ⟨room, small, ?_, inside, free, ends, content⟩
  exact toNat_distance (by rw [length]; exact inside) (by rw [length]; exact free)
    (by rw [length]; exact small) (by rw [length]; exact ends)

theorem ring_construct : Ring (construct : JSAPIDeque α) [] :=
  ring_of (show 8 ≤ 8 by decide) (show 8 ≤ 2 ^ 27 by decide) (show 0 < 8 by decide)
    (show 0 < 8 by decide) rfl rfl

section

variable (ring : Ring deque l)
include ring

theorem Ring.room : 8 ≤ deque.capacity := JSAPIQueue.Ring.room ring
theorem Ring.small : deque.capacity ≤ 2 ^ 27 := JSAPIQueue.Ring.small ring
theorem Ring.inside : deque.first.toNat < deque.capacity := JSAPIQueue.Ring.inside ring
theorem Ring.free : l.length < deque.capacity := JSAPIQueue.Ring.free ring
theorem Ring.getSize : deque.getSize.toNat = l.length := JSAPIQueue.Ring.length ring

theorem Ring.last : deque.last.toNat = (deque.first.toNat + l.length) % deque.capacity :=
  JSAPIQueue.Ring.tail ring

theorem Ring.content : ringContent (fun i : Nat => deque.elements.get i) deque.capacity
    deque.first.toNat l.length = l := JSAPIQueue.Ring.content ring

theorem Ring.toNat_elementsLength : deque.elementsLength.toNat = deque.capacity :=
  JSAPIDeque.toNat_elementsLength ring.small

theorem Ring.toNat_next {i : UInt32} (below : i.toNat < deque.capacity) :
    ((i + 1) % deque.elementsLength).toNat = (i.toNat + 1) % deque.capacity :=
  JSAPIQueue.Ring.toNat_next ring below

theorem Ring.toNat_previous {i : UInt32} (below : i.toNat < deque.capacity) :
    ((i + deque.elementsLength - 1) % deque.elementsLength).toNat =
      (i.toNat + deque.capacity - 1) % deque.capacity := by
  have length := ring.toNat_elementsLength
  rw [ArkRuntime.toNat_previous (by rw [length]; exact below) (by rw [length]; exact ring.small), length]

theorem Ring.last_lt : deque.last.toNat < deque.capacity := JSAPIQueue.Ring.tail_lt ring

/-- No slot is left in front of the first element. -/
theorem Ring.full_front_iff :
    (deque.first + deque.elementsLength - 1) % deque.elementsLength = deque.last ↔
      l.length + 1 = deque.capacity := by
  have room := ring.room
  have free := ring.free
  rw [← UInt32.toNat_inj, ring.toNat_previous ring.inside, ring.last, Nat.add_sub_assoc (by omega)]
  constructor
  · intro same
    have := ring_slot_inj (by omega) free same
    omega
  · intro count
    rw [← count, Nat.add_sub_cancel]

/-- No slot is left behind the last element. -/
theorem Ring.full_end_iff :
    deque.first = (deque.last + 1) % deque.elementsLength ↔ l.length + 1 = deque.capacity :=
  eq_comm.trans (JSAPIQueue.Ring.full_iff ring)

theorem Ring.isEmpty_iff : deque.isEmpty = true ↔ l = [] := by
  have free := ring.free
  have here : (deque.first.toNat + 0) % deque.capacity = deque.first.toNat :=
    Nat.mod_eq_of_lt ring.inside
  rw [isEmpty, decide_eq_true_iff, ← UInt32.toNat_inj, ring.last]
  constructor
  · intro same
    have zero := ring_slot_inj (by omega) free (here.trans same)
    exact List.length_eq_zero_iff.mp zero.symm
  · rintro rfl
    exact here.symm

/-! ## Growth -/

theorem Ring.toNat_computeCapacity :
    (computeCapacity deque.elementsLength).toNat = 2 * deque.capacity := by
  have length := ring.toNat_elementsLength
  have room := ring.room
  have eight : defaultCapacityLength.toNat = 8 := rfl
  have doubled := toNat_doubled (c := deque.elementsLength) (by rw [length]; exact ring.small)
  have more : deque.elementsLength <<< 1 > defaultCapacityLength := by
    rw [gt_iff_lt, UInt32.lt_iff_toNat_lt, doubled, eight, length]
    omega
  rw [computeCapacity, if_pos more, doubled, length]

/-- The elements moved to the start of an array of twice the capacity. -/
theorem Ring.moved {a : TaggedArray α} {n : UInt32} (count : n.toNat = l.length)
    (size : a.length.toNat = 2 * deque.capacity) (small : 2 * deque.capacity ≤ 2 ^ 27)
    (slots : ∀ j < l.length, a.get (j : Nat) =
      deque.elements.get ((deque.first.toNat + j) % deque.capacity : Nat)) :
    Ring ⟨a, 0, n⟩ l ∧ l.length + 1 < (⟨a, 0, n⟩ : JSAPIDeque α).capacity := by
  have room := ring.room
  have free := ring.free
  have zero : (0 : UInt32).toNat = 0 := rfl
  have new : (⟨a, 0, n⟩ : JSAPIDeque α).capacity = 2 * deque.capacity := size
  refine ⟨ring_of ?_ ?_ ?_ ?_ ?_ ?_, ?_⟩ <;> rw [new]
  · omega
  · exact small
  · rw [zero]
    omega
  · omega
  · rw [zero, Nat.zero_add, count, Nat.mod_eq_of_lt (by omega)]
  · have copy : ringContent (fun i : Nat => a.get i) (2 * deque.capacity) 0 l.length =
        ringContent (fun i : Nat => deque.elements.get i) deque.capacity deque.first.toNat l.length :=
      ringContent_copy (by omega) slots
    exact copy.trans ring.content
  · omega

end

/-- The heap has no room for the array that the elements are to be copied to. -/
def NeedsMemory (maxHeapSize : Nat) (deque : JSAPIDeque α) : Prop :=
  maxHeapSize < TaggedArray.computeSize (computeCapacity deque.elementsLength).toNat

/-- The copy into the larger array, for which each caller sets the ends. -/
theorem copyDeque_spec {maxHeapSize : Nat} (bounded : maxHeapSize ≤ maxHeapSizeLimit)
    (ring : Ring deque l) {n : UInt32} (count : n.toNat = l.length) :
    (∃ a, copyDeque maxHeapSize deque.elements (computeCapacity deque.elementsLength) deque.first
        deque.last = some a ∧ Ring ⟨a, 0, n⟩ l ∧
        l.length + 1 < (⟨a, 0, n⟩ : JSAPIDeque α).capacity) ∨
      (copyDeque maxHeapSize deque.elements (computeCapacity deque.elementsLength) deque.first
        deque.last = none ∧ NeedsMemory maxHeapSize deque) := by
  have larger := ring.toNat_computeCapacity
  rcases Nat.lt_or_ge maxHeapSize
      (TaggedArray.computeSize (computeCapacity deque.elementsLength).toNat) with large | fits
  · refine .inr ⟨?_, large⟩
    rw [copyDeque, JSAPIQueue.copyQueue, if_neg (by omega)]
  · obtain ⟨a, copied, size, slots⟩ := JSAPIQueue.copyQueue_spec ring fits
    have bound : 2 * deque.capacity ≤ 2 ^ 27 := by
      rw [TaggedArray.computeSize, larger] at fits
      unfold maxHeapSizeLimit at bounded
      omega
    exact .inl ⟨a, copied, ring.moved count (by rw [size, larger]; rfl) bound slots⟩

theorem toNat_capacity_pred (ring : Ring deque l) (full : l.length + 1 = deque.capacity) :
    (deque.elementsLength - 1).toNat = l.length := by
  have one : (1 : UInt32).toNat = 1 := rfl
  have small := ring.small
  rw [UInt32.toNat_sub, one, ring.toNat_elementsLength]
  omega

/-! ## Insertion -/

theorem slots_set (a : TaggedArray α) (k : Nat) (v : JSTaggedValue α) :
    (fun i : Nat => (a.set k v).get i) = Function.update (fun i : Nat => a.get i) k v := by
  funext i
  simp only [TaggedArray.get_set, Function.update_apply, Int.natCast_inj]

theorem Ring.pushFront (ring : Ring deque l) (free : l.length + 1 < deque.capacity) {k : UInt32}
    (before : k = (deque.first + deque.elementsLength - 1) % deque.elementsLength)
    (v : JSTaggedValue α) :
    Ring { deque with elements := deque.elements.set k.toNat v, first := k } (v :: l) := by
  have inside := ring.inside
  have slot : k.toNat = (deque.first.toNat + deque.capacity - 1) % deque.capacity := by
    rw [before, ring.toNat_previous ring.inside]
  have below : k.toNat < deque.capacity := by
    rw [slot]
    exact Nat.mod_lt _ (by omega)
  have round : deque.first.toNat + deque.capacity - 1 + 1 = deque.first.toNat + deque.capacity := by
    omega
  have next : (k.toNat + 1) % deque.capacity = deque.first.toNat := by
    rw [slot, Nat.mod_add_mod, round, Nat.add_mod_right, Nat.mod_eq_of_lt inside]
  refine ring_of ring.room ring.small below free ?_ ?_
  · change deque.last.toNat = (k.toNat + (l.length + 1)) % deque.capacity
    rw [ring.last, ← next, Nat.mod_add_mod]
    congr 1
    omega
  · change ringContent (fun i : Nat => (deque.elements.set k.toNat v).get i) deque.capacity k.toNat
      (l.length + 1) = v :: l
    rw [slots_set, ringContent_pushFront below next ring.free, ring.content]

theorem insertFront_spec {maxHeapSize : Nat} (bounded : maxHeapSize ≤ maxHeapSizeLimit)
    (ring : Ring deque l) (v : JSTaggedValue α) :
    (∃ deque', deque.insertFront maxHeapSize v = some deque' ∧ Ring deque' (v :: l)) ∨
      (deque.insertFront maxHeapSize v = none ∧
        (deque.first + deque.elementsLength - 1) % deque.elementsLength = deque.last ∧
        NeedsMemory maxHeapSize deque) := by
  have free := ring.free
  rw [insertFront]
  simp only
  by_cases full : (deque.first + deque.elementsLength - 1) % deque.elementsLength = deque.last
  · have count := ring.full_front_iff.mp full
    rw [if_pos full]
    rcases copyDeque_spec bounded ring (toNat_capacity_pred ring count) with
      ⟨a, copied, moved, more⟩ | ⟨stuck, needs⟩
    · refine .inl ⟨_, ?_, moved.pushFront more rfl v⟩
      rw [growCapacity, copied]
      rfl
    · refine .inr ⟨?_, full, needs⟩
      rw [growCapacity, stuck]
      rfl
  · rw [if_neg full]
    have := mt ring.full_front_iff.mpr full
    exact .inl ⟨_, rfl, ring.pushFront (by omega) rfl v⟩

theorem Ring.pushEnd (ring : Ring deque l) (free : l.length + 1 < deque.capacity)
    (v : JSTaggedValue α) :
    Ring { deque with
      elements := deque.elements.set deque.last.toNat v
      last := (deque.last + 1) % deque.elementsLength } (l ++ [v]) := by
  have length : (l ++ [v]).length = l.length + 1 := List.length_append
  refine ring_of ring.room ring.small ring.inside (by rw [length]; exact free) ?_ ?_ <;> rw [length]
  · exact (ring.toNat_next ring.last_lt).trans (by rw [ring.last, Nat.mod_add_mod]; rfl)
  · change ringContent (fun i : Nat => (deque.elements.set deque.last.toNat v).get i) deque.capacity
      deque.first.toNat (l.length + 1) = l ++ [v]
    rw [slots_set, ring.last, ringContent_push ring.free, ring.content]

theorem insertEnd_spec {maxHeapSize : Nat} (bounded : maxHeapSize ≤ maxHeapSizeLimit)
    (ring : Ring deque l) (v : JSTaggedValue α) :
    (∃ deque', deque.insertEnd maxHeapSize v = some deque' ∧ Ring deque' (l ++ [v])) ∨
      (deque.insertEnd maxHeapSize v = none ∧
        deque.first = (deque.last + 1) % deque.elementsLength ∧ NeedsMemory maxHeapSize deque) := by
  have free := ring.free
  rw [insertEnd]
  simp only
  by_cases full : deque.first = (deque.last + 1) % deque.elementsLength
  · have count := ring.full_end_iff.mp full
    rw [if_pos full]
    rcases copyDeque_spec bounded ring (toNat_capacity_pred ring count) with
      ⟨a, copied, moved, more⟩ | ⟨stuck, needs⟩
    · refine .inl ⟨_, ?_, moved.pushEnd more v⟩
      rw [growCapacity, copied]
      rfl
    · refine .inr ⟨?_, full, needs⟩
      rw [growCapacity, stuck]
      rfl
  · rw [if_neg full]
    have := mt ring.full_end_iff.mpr full
    exact .inl ⟨_, rfl, ring.pushEnd (by omega) v⟩

/-! ## Removal -/

theorem popFirst_spec (ring : Ring deque l) :
    deque.popFirst.1 = l.headD .undefined ∧ Ring deque.popFirst.2 l.tail := by
  cases l with
  | nil =>
    rw [popFirst, if_pos (ring.isEmpty_iff.mpr rfl)]
    exact ⟨rfl, ring⟩
  | cons x xs =>
    rw [popFirst, if_neg (mt ring.isEmpty_iff.mp (List.cons_ne_nil x xs))]
    have content := ring.content
    rw [List.length_cons, ringContent_pop ring.inside] at content
    obtain ⟨first, rest⟩ := List.cons.inj content
    have next := ring.toNat_next ring.inside
    have below : ((deque.first + 1) % deque.elementsLength).toNat < deque.capacity := by
      rw [next]
      exact Nat.mod_lt _ (Nat.zero_lt_of_lt ring.inside)
    refine ⟨first, ring_of ring.room ring.small below (Nat.lt_of_succ_lt ring.free) ?_ ?_⟩
    · change deque.last.toNat =
        (((deque.first + 1) % deque.elementsLength).toNat + xs.length) % deque.capacity
      rw [next, ring.last, Nat.mod_add_mod, List.length_cons]
      congr 1
      omega
    · change ringContent _ _ ((deque.first + 1) % deque.elementsLength).toNat xs.length = xs
      rw [next]
      exact rest

/-- The slot in front of the end. -/
theorem Ring.toNat_before_last (ring : Ring deque l) {n : Nat} (count : l.length = n + 1) :
    ((deque.last + deque.elementsLength - 1) % deque.elementsLength).toNat =
      (deque.first.toNat + n) % deque.capacity := by
  have room := ring.room
  rw [ring.toNat_previous ring.last_lt, ring.last, count, Nat.add_sub_assoc (by omega), Nat.mod_add_mod]
  have round : deque.first.toNat + (n + 1) + (deque.capacity - 1) =
      deque.first.toNat + n + deque.capacity := by omega
  rw [round, Nat.add_mod_right]

theorem Ring.content_concat {xs : List (JSTaggedValue α)} {x : JSTaggedValue α}
    (ring : Ring deque (xs ++ [x])) :
    ringContent (fun i : Nat => deque.elements.get i) deque.capacity deque.first.toNat xs.length = xs ∧
      deque.elements.get ((deque.first.toNat + xs.length) % deque.capacity : Nat) = x := by
  have content := ring.content
  rw [List.length_append, List.length_singleton, ringContent_popLast] at content
  obtain ⟨rest, last⟩ := List.append_inj' content rfl
  exact ⟨rest, List.singleton_inj.mp last⟩

theorem popLast_spec (ring : Ring deque l) :
    deque.popLast.1 = l.getLastD .undefined ∧ Ring deque.popLast.2 l.dropLast := by
  rcases List.eq_nil_or_concat' l with rfl | ⟨xs, x, rfl⟩
  · rw [popLast, if_pos (ring.isEmpty_iff.mpr rfl)]
    exact ⟨rfl, ring⟩
  · rw [popLast, if_neg (mt ring.isEmpty_iff.mp (List.append_ne_nil_of_right_ne_nil xs (by simp)))]
    obtain ⟨rest, last⟩ := ring.content_concat
    have count : (xs ++ [x]).length = xs.length + 1 := List.length_append
    have slot := ring.toNat_before_last count
    have free := ring.free
    rw [count] at free
    rw [List.getLastD_concat, List.dropLast_concat]
    simp only
    refine ⟨by rw [slot]; exact last, ring_of ring.room ring.small ring.inside ?_ slot rest⟩
    exact Nat.lt_of_succ_lt free

/-! ## Elements by index -/

/-- The slot of an element. -/
theorem Ring.toNat_curIndex (ring : Ring deque l) {i : UInt32} (below : i.toNat < l.length) :
    ((deque.first + i) % deque.elementsLength).toNat =
      (deque.first.toNat + i.toNat) % deque.capacity :=
  JSAPIQueue.Ring.toNat_curIndex ring below

theorem Ring.getElem?_eq (ring : Ring deque l) {i : Nat} (below : i < l.length) :
    l[i]? = some (deque.elements.get ((deque.first.toNat + i) % deque.capacity : Nat)) := by
  have slot : (ringContent (fun i : Nat => deque.elements.get i) deque.capacity
      deque.first.toNat l.length)[i]? = _ := getElem?_ringContent below
  rwa [ring.content] at slot

theorem get_spec (ring : Ring deque l) {i : UInt32} (below : i.toNat < l.length) :
    deque.get i = l[i.toNat] := by
  have slot := ring.getElem?_eq below
  rw [List.getElem?_eq_getElem below] at slot
  rw [get, ring.toNat_curIndex below, Option.some.inj slot]

theorem set_spec (ring : Ring deque l) {i : UInt32} (below : i.toNat < l.length)
    (v : JSTaggedValue α) : Ring (deque.set i v) (l.set i.toNat v) := by
  have length : (l.set i.toNat v).length = l.length := List.length_set
  refine ring_of ring.room ring.small ring.inside ?_ ?_ ?_ <;> rw [length]
  · exact ring.free
  · exact ring.last
  · change ringContent (fun j : Nat => (deque.elements.set
      ((deque.first + i) % deque.elementsLength).toNat v).get j) deque.capacity deque.first.toNat
      l.length = l.set i.toNat v
    rw [ring.toNat_curIndex below, slots_set, ringContent_set below (Nat.le_of_lt ring.free), ring.content]

/-! ## The readers -/

theorem getFront_spec (ring : Ring deque l) : deque.getFront = l.headD .undefined := by
  rw [← (popFirst_spec ring).1, getFront, popFirst]
  split <;> rfl

theorem getTail_spec (ring : Ring deque l) : deque.getTail = l.getLastD .undefined := by
  rw [← (popLast_spec ring).1, getTail, popLast]
  split <;> rfl

/-- The loop of `Has` is at the `i`-th element. -/
def SearchAt (deque : JSAPIDeque α) (i : Nat) (index : UInt32) : Prop :=
  index.toNat = (deque.first.toNat + i) % deque.capacity

theorem SearchAt.at_last (ring : Ring deque l) {i : Nat} {index : UInt32} (le : i ≤ l.length)
    (here : SearchAt deque i index) : index = deque.last ↔ i = l.length := by
  have free := ring.free
  rw [← UInt32.toNat_inj, here, ring.last]
  constructor
  · exact ring_slot_inj (by omega) free
  · intro same
    rw [same]

theorem has_spec (ring : Ring deque l) (sameValue : JSTaggedValue α → JSTaggedValue α → Bool)
    (value : JSTaggedValue α) :
    deque.has sameValue value = some (l.any fun element => sameValue element value) := by
  have free := ring.free
  rw [has, ring.toNat_elementsLength]
  have rule : ∃ found, iter (deque.hasStep sameValue value) (deque.capacity + 1) deque.first =
      some found ∧ found = l.any fun element => sameValue element value := iter_spec
    (I := fun n index => ∃ i ≤ l.length, n = l.length - i ∧ SearchAt deque i index ∧
      (l.any fun element => sameValue element value) =
        ((l.drop i).any fun element => sameValue element value))
    (Q := fun found => found = l.any fun element => sameValue element value) ?_
    (deque.capacity + 1) l.length deque.first
    ⟨0, Nat.zero_le _, (Nat.sub_zero _).symm, (Nat.mod_eq_of_lt ring.inside).symm, rfl⟩ (by omega)
  · obtain ⟨found, run, same⟩ := rule
    rw [run, same]
  · rintro n index ⟨i, le, rounds, here, rest⟩
    by_cases last : i = l.length
    · refine .inr ⟨false, if_pos ((here.at_last ring le).mpr last), ?_⟩
      rw [rest, last, List.drop_length, List.any_nil]
    · have below : i < l.length := by omega
      have goes := mt (here.at_last ring le).mp last
      have element : l[i] = deque.elements.get index.toNat := by
        have slot := ring.getElem?_eq below
        rw [List.getElem?_eq_getElem below] at slot
        rw [here, Option.some.inj slot]
      rw [List.drop_eq_getElem_cons below, List.any_cons, element] at rest
      by_cases found : sameValue (deque.elements.get index.toNat) value
      · refine .inr ⟨true, (if_neg goes).trans (if_pos found), ?_⟩
        rw [rest, found, Bool.true_or]
      · refine .inl ⟨_, l.length - (i + 1), (if_neg goes).trans (if_neg found), by omega, i + 1, below,
          rfl, ?_, ?_⟩
        · have inside : index.toNat < deque.capacity := by
            rw [here]
            exact Nat.mod_lt _ (by omega)
          rw [SearchAt, ring.toNat_next inside, here, Nat.mod_add_mod, Nat.add_assoc]
        · rw [rest, Bool.eq_false_of_not_eq_true found, Bool.false_or]

theorem relayout_spec {maxHeapSize : Nat} (bounded : maxHeapSize ≤ maxHeapSizeLimit)
    (ring : Ring deque l) :
    (∃ deque', deque.relayout maxHeapSize = some deque' ∧ Ring deque' l) ∨
      (deque.relayout maxHeapSize = none ∧ NeedsMemory maxHeapSize deque) := by
  rw [relayout]
  rcases copyDeque_spec bounded ring ring.getSize with ⟨a, copied, moved, -⟩ | ⟨stuck, needs⟩
  · exact .inl ⟨_, by simp only [copied]; rfl, moved⟩
  · exact .inr ⟨by simp only [stuck]; rfl, needs⟩

/-! ## Runs -/

inductive Op (α : Type) where
  | insertFront (value : JSTaggedValue α)
  | insertEnd (value : JSTaggedValue α)
  | popFirst
  | popLast
  | set (index : UInt32) (value : JSTaggedValue α)
  | ownKeys
  | ownEnumKeys

/-- One operation and what it returns of the deque, in a heap of `maxHeapSize` bytes. -/
def step (maxHeapSize : Nat) (deque : JSAPIDeque α) :
    Op α → Option (JSAPIDeque α × Option (JSTaggedValue α))
  | .insertFront v => (deque.insertFront maxHeapSize v).map fun deque' => (deque', none)
  | .insertEnd v => (deque.insertEnd maxHeapSize v).map fun deque' => (deque', none)
  | .popFirst => some (deque.popFirst.2, some deque.popFirst.1)
  | .popLast => some (deque.popLast.2, some deque.popLast.1)
  | .set index v => some (deque.set index v, some .undefined)
  | .ownKeys => (deque.ownKeys maxHeapSize).map fun deque' => (deque', none)
  | .ownEnumKeys => (deque.ownEnumKeys maxHeapSize).map fun deque' => (deque', none)

/-- The double-ended sequence. -/
def sequence (l : List (JSTaggedValue α)) : Op α → List (JSTaggedValue α)
  | .insertFront v => v :: l
  | .insertEnd v => l ++ [v]
  | .popFirst => l.tail
  | .popLast => l.dropLast
  | .set index v => l.set index.toNat v
  | .ownKeys => l
  | .ownEnumKeys => l

/-- What is stored at an index is stored below the size. -/
def Inside (past : List (Op α)) : Op α → Prop
  | .set index _ => index.toNat < (past.foldl sequence []).length
  | _ => True

/-- What an operation answers after others: a removal the element it removes. -/
def AnswersSequence (past : List (Op α)) : Op α → Option (JSTaggedValue α) → Prop
  | .popFirst, answer => answer = some ((past.foldl sequence []).headD .undefined)
  | .popLast, answer => answer = some ((past.foldl sequence []).getLastD .undefined)
  | .set _ _, answer => answer = some .undefined
  | _, answer => answer = none

/-- An operation that needs an array for which the heap has no room. -/
def OutOfMemory (maxHeapSize : Nat) (deque : JSAPIDeque α) : Op α → Prop
  | .insertFront _ => (deque.first + deque.elementsLength - 1) % deque.elementsLength = deque.last ∧
      NeedsMemory maxHeapSize deque
  | .insertEnd _ => deque.first = (deque.last + 1) % deque.elementsLength ∧
      NeedsMemory maxHeapSize deque
  | .ownKeys | .ownEnumKeys => NeedsMemory maxHeapSize deque
  | _ => False

theorem step_spec {maxHeapSize : Nat} (bounded : maxHeapSize ≤ maxHeapSizeLimit) (past : List (Op α))
    (o : Op α) (ring : Ring deque (past.foldl sequence [])) (inside : Inside past o) :
    (∃ deque' answer, deque.step maxHeapSize o = some (deque', answer) ∧
        Ring deque' ((past ++ [o]).foldl sequence []) ∧ AnswersSequence past o answer) ∨
      (deque.step maxHeapSize o = none ∧ OutOfMemory maxHeapSize deque o) := by
  rw [List.foldl_append]
  cases o with
  | insertFront v =>
    rcases insertFront_spec bounded ring v with ⟨deque', inserted, ring'⟩ | ⟨stuck, full, needs⟩
    · exact .inl ⟨deque', none, by rw [step, inserted]; rfl, ring', rfl⟩
    · exact .inr ⟨by rw [step, stuck]; rfl, full, needs⟩
  | insertEnd v =>
    rcases insertEnd_spec bounded ring v with ⟨deque', inserted, ring'⟩ | ⟨stuck, full, needs⟩
    · exact .inl ⟨deque', none, by rw [step, inserted]; rfl, ring', rfl⟩
    · exact .inr ⟨by rw [step, stuck]; rfl, full, needs⟩
  | popFirst =>
    obtain ⟨first, ring'⟩ := popFirst_spec ring
    exact .inl ⟨deque.popFirst.2, some deque.popFirst.1, rfl, ring', congrArg some first⟩
  | popLast =>
    obtain ⟨last, ring'⟩ := popLast_spec ring
    exact .inl ⟨deque.popLast.2, some deque.popLast.1, rfl, ring', congrArg some last⟩
  | set index v => exact .inl ⟨deque.set index v, some .undefined, rfl, set_spec ring inside v, rfl⟩
  | ownKeys =>
    rcases relayout_spec bounded ring with ⟨deque', moved, ring'⟩ | ⟨stuck, needs⟩
    · exact .inl ⟨deque', none, by rw [step, ownKeys, moved]; rfl, ring', rfl⟩
    · exact .inr ⟨by rw [step, ownKeys, stuck]; rfl, needs⟩
  | ownEnumKeys =>
    rcases relayout_spec bounded ring with ⟨deque', moved, ring'⟩ | ⟨stuck, needs⟩
    · exact .inl ⟨deque', none, by rw [step, ownEnumKeys, moved]; rfl, ring', rfl⟩
    · exact .inr ⟨by rw [step, ownEnumKeys, stuck]; rfl, needs⟩

/-- What can be read of a deque that holds `l`. -/
structure Reads (deque : JSAPIDeque α) (l : List (JSTaggedValue α)) : Prop where
  getSize : deque.getSize.toNat = l.length
  get : ∀ i : UInt32, ∀ below : i.toNat < l.length, deque.get i = l[i.toNat]
  getFront : deque.getFront = l.headD .undefined
  getTail : deque.getTail = l.getLastD .undefined
  has : ∀ sameValue value, deque.has sameValue value = some (l.any fun element => sameValue element value)

theorem Ring.reads (ring : Ring deque l) : Reads deque l where
  getSize := ring.getSize
  get _ below := get_spec ring below
  getFront := getFront_spec ring
  getTail := getTail_spec ring
  has := has_spec ring

/-- Any run is that of a double-ended sequence, up to an operation that the heap has no room for. -/
theorem jsapiDeque_sequence_of_run (maxHeapSize : Nat) (bounded : maxHeapSize ≤ maxHeapSizeLimit)
    (ops : List (Op α)) (inside : ∀ done o rest, ops = done ++ o :: rest → Inside done o) :
    (∃ deque rs, trace (step maxHeapSize) construct ops = some (deque, rs) ∧
        Reads deque (ops.foldl sequence []) ∧ Answers AnswersSequence [] ops rs) ∨
      ∃ done o rest deque rs, ops = done ++ o :: rest ∧
        trace (step maxHeapSize) construct done = some (deque, rs) ∧
        Reads deque (done.foldl sequence []) ∧ Answers AnswersSequence [] done rs ∧
        deque.step maxHeapSize o = none ∧ OutOfMemory maxHeapSize deque o := by
  have rule := trace_or_stuck_after (P := Inside (α := α))
    (R := fun past deque => Ring deque (past.foldl sequence [])) (fun past deque o ring inside =>
      step_spec bounded past o ring inside)
  rcases rule ops [] construct ring_construct inside with
    ⟨deque, rs, run, ring, answers⟩ | ⟨done, o, rest, deque, rs, split, run, ring, answers, stuck⟩
  · exact .inl ⟨deque, rs, run, ring.reads, answers⟩
  · exact .inr ⟨done, o, rest, deque, rs, split, run, ring.reads, answers, stuck⟩

/-- Both ends, an index and the relayout. -/
theorem jsapiDeque_sequence_of_run_both_ends :
    let ops : List (Op Unit) := [.insertFront (.int 1), .insertEnd (.int 2), .set 1 (.int 3), .ownKeys,
      .popFirst]
    (∃ deque rs, trace (step maxHeapSizeLimit) construct ops = some (deque, rs) ∧
        Reads deque [.int 3] ∧ Answers AnswersSequence [] ops rs) ∨
      ∃ done o rest deque rs, ops = done ++ o :: rest ∧
        trace (step maxHeapSizeLimit) construct done = some (deque, rs) ∧
        Reads deque (done.foldl sequence []) ∧ Answers AnswersSequence [] done rs ∧
        deque.step maxHeapSizeLimit o = none ∧ OutOfMemory maxHeapSizeLimit deque o := by
  apply jsapiDeque_sequence_of_run maxHeapSizeLimit (Nat.le_refl _)
  rintro (_ | ⟨_, _ | ⟨_, _ | ⟨_, _ | ⟨_, _ | ⟨_, _ | _⟩⟩⟩⟩⟩) o rest split <;> cases split <;>
    first | trivial | exact (by decide : 1 < 2)

end JSAPIDeque

end ArkRuntime
