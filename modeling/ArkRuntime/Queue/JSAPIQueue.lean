import ArkRuntime.Queue.Model
import ArkRuntime.Misc.RingBuffer
import ArkRuntime.Misc.Run

/-!
# `JSAPIQueue`

The elements of the container, from the front on, and what `Add`, `Pop`, `Get` and `Set` do with them.
`Get` counts from the front, `Set` from the first slot of the array: the two agree only while nothing was
popped since the array was made.
-/

namespace ArkRuntime

namespace JSAPIQueue

variable {α : Type} {queue : JSAPIQueue α} {l : List (JSTaggedValue α)}

def capacity (queue : JSAPIQueue α) : Nat := queue.elements.length.toNat

/-- The container holds `l`; one slot of the ring is free. -/
structure Ring (queue : JSAPIQueue α) (l : List (JSTaggedValue α)) : Prop where
  room : 8 ≤ queue.capacity
  small : queue.capacity ≤ 2 ^ 27
  length : queue.length.toNat = l.length
  inside : queue.front.toNat < queue.capacity
  free : l.length < queue.capacity
  tail : queue.tail.toNat = (queue.front.toNat + l.length) % queue.capacity
  content : ringContent (fun i : Nat => queue.elements.get i) queue.capacity queue.front.toNat
    l.length = l

theorem ring_construct : Ring (construct : JSAPIQueue α) [] :=
  ⟨show 8 ≤ 8 by decide, show 8 ≤ 2 ^ 27 by decide, rfl, show 0 < 8 by decide, show 0 < 8 by decide,
    rfl, rfl⟩

theorem Ring.toNat_elementsLength (ring : Ring queue l) :
    queue.elementsLength.toNat = queue.capacity := by
  have small := ring.small
  rw [elementsLength, UInt32.toNat_ofNat']
  exact Nat.mod_eq_of_lt (show queue.elements.length.toNat < 2 ^ 32 by unfold capacity at small; omega)

theorem Ring.elementsLength_ne_zero (ring : Ring queue l) : ¬ queue.elementsLength = 0 := by
  intro none
  have length := ring.toNat_elementsLength
  have room := ring.room
  rw [none] at length
  exact absurd room (by rw [← length]; decide)

theorem Ring.toNat_next (ring : Ring queue l) {i : UInt32} (below : i.toNat < queue.capacity) :
    ((i + 1) % queue.elementsLength).toNat = (i.toNat + 1) % queue.capacity := by
  have length := ring.toNat_elementsLength
  rw [ArkRuntime.toNat_next (by rw [length]; exact below) (by rw [length]; exact ring.small), length]

theorem Ring.tail_lt (ring : Ring queue l) : queue.tail.toNat < queue.capacity := by
  have room := ring.room
  rw [ring.tail]
  exact Nat.mod_lt _ (by omega)

/-- No slot is left when the slot behind the tail is the front. -/
theorem Ring.full_iff (ring : Ring queue l) :
    (queue.tail + 1) % queue.elementsLength = queue.front ↔ l.length + 1 = queue.capacity := by
  rw [← UInt32.toNat_inj, ring.toNat_next ring.tail_lt, ring.tail, Nat.mod_add_mod, Nat.add_assoc]
  exact ring_round ring.inside (Nat.succ_pos _) ring.free

/-! ## Growth -/

/-- `CopyQueue` before its `i`-th round. -/
structure Copied (queue : JSAPIQueue α) (newLength : Nat) (i : Nat)
    (s : TaggedArray α × UInt32 × UInt32) : Prop where
  length : s.1.length = newLength
  slots : ∀ j < i, s.1.get (j : Nat) =
    queue.elements.get ((queue.front.toNat + j) % queue.capacity : Nat)
  curIndex : s.2.1.toNat = (queue.front.toNat + i) % queue.capacity
  newIndex : s.2.2.toNat = i

theorem copied_step {newLength i : Nat} {s : TaggedArray α × UInt32 × UInt32} (ring : Ring queue l)
    (below : i < l.length) (copied : Copied queue newLength i s) :
    Copied queue newLength (i + 1)
      (s.1.set s.2.2.toNat (queue.elements.get s.2.1.toNat), (s.2.1 + 1) % queue.elementsLength,
        s.2.2 + 1) := by
  have free := ring.free
  have small := ring.small
  refine ⟨copied.length, ?_, ?_, ?_⟩
  · intro j less
    simp only [TaggedArray.get_set, copied.newIndex, copied.curIndex, Int.natCast_inj]
    rcases Nat.lt_succ_iff_lt_or_eq.mp less with less | rfl
    · rw [if_neg (by omega)]
      exact copied.slots j less
    · rw [if_pos rfl]
  · simp only
    have inside : s.2.1.toNat < queue.capacity := by
      rw [copied.curIndex]
      exact Nat.mod_lt _ (by omega)
    rw [ring.toNat_next inside, copied.curIndex, Nat.mod_add_mod, Nat.add_assoc]
  · simp only
    have one : (1 : UInt32).toNat = 1 := rfl
    rw [UInt32.toNat_add, one, copied.newIndex]
    exact Nat.mod_eq_of_lt (by omega)

/-- The loop leaves when it has come to the tail. -/
theorem Copied.at_tail {newLength i : Nat} {s : TaggedArray α × UInt32 × UInt32} (ring : Ring queue l)
    (le : i ≤ l.length) (copied : Copied queue newLength i s) : s.2.1 = queue.tail ↔ i = l.length := by
  have free := ring.free
  rw [← UInt32.toNat_inj, copied.curIndex, ring.tail]
  constructor
  · exact ring_slot_inj (by omega) free
  · intro same
    rw [same]

theorem copyQueue_spec {maxHeapSize : Nat} {newLength : UInt32} (ring : Ring queue l)
    (fits : TaggedArray.computeSize newLength.toNat ≤ maxHeapSize) :
    ∃ a : TaggedArray α,
      copyQueue maxHeapSize queue.elements newLength queue.front queue.tail = some a ∧
        a.length = newLength.toNat ∧ ∀ j < l.length, a.get (j : Nat) =
          queue.elements.get ((queue.front.toNat + j) % queue.capacity : Nat) := by
  have free := ring.free
  rw [copyQueue, if_pos fits]
  change ∃ a, iter (copyQueueStep queue.elements queue.elementsLength queue.tail)
    (queue.elementsLength.toNat + 1) _ = some a ∧ _
  rw [ring.toNat_elementsLength]
  apply iter_spec (I := fun n s => ∃ i ≤ l.length, n = l.length - i ∧ Copied queue newLength.toNat i s)
    (Q := fun a : TaggedArray α => a.length = newLength.toNat ∧ ∀ j < l.length, a.get (j : Nat) =
      queue.elements.get ((queue.front.toNat + j) % queue.capacity : Nat)) ?_ _ l.length
  · refine ⟨0, Nat.zero_le _, (Nat.sub_zero _).symm, rfl, ?_, ?_, rfl⟩
    · exact fun j less => absurd less (Nat.not_lt_zero j)
    · exact (Nat.mod_eq_of_lt ring.inside).symm
  · omega
  · intro n s ⟨i, le, rounds, copied⟩
    by_cases last : i = l.length
    · refine .inr ⟨s.1, if_pos ((copied.at_tail ring le).mpr last), copied.length, ?_⟩
      rw [← last]
      exact copied.slots
    · refine .inl ⟨_, l.length - (i + 1), if_neg (mt (copied.at_tail ring le).mp last), by omega,
        i + 1, by omega, rfl, ?_⟩
      exact copied_step ring (by omega) copied

theorem toNat_computeCapacity {c : UInt32} (room : 8 ≤ c.toNat) (small : c.toNat ≤ 2 ^ 27) :
    (computeCapacity c).toNat = c.toNat + c.toNat / 2 := by
  have larger := toNat_newCapacity small
  have eight : defaultCapacityLength.toNat = 8 := rfl
  have more : c + (c >>> 1) > defaultCapacityLength := by
    rw [gt_iff_lt, UInt32.lt_iff_toNat_lt, larger, eight]
    omega
  rw [computeCapacity, if_pos more, larger]

/-- `Add` needs an array that does not fit into the heap. -/
def NeedsMemory (maxHeapSize : Nat) (queue : JSAPIQueue α) : Prop :=
  (queue.tail + 1) % queue.elementsLength = queue.front ∧
    maxHeapSize < TaggedArray.computeSize (computeCapacity (queue.length + 1)).toNat

theorem growCapacity_spec {maxHeapSize : Nat} (bounded : maxHeapSize ≤ maxHeapSizeLimit)
    (ring : Ring queue l) :
    (∃ queue', queue.growCapacity maxHeapSize (queue.length + 1) = some queue' ∧ Ring queue' l ∧
        l.length + 1 < queue'.capacity) ∨
      (queue.growCapacity maxHeapSize (queue.length + 1) = none ∧ NeedsMemory maxHeapSize queue) := by
  have free := ring.free
  have small := ring.small
  have room := ring.room
  rw [growCapacity]
  simp only [ring.elementsLength_ne_zero, if_false]
  by_cases full : (queue.tail + 1) % queue.elementsLength = queue.front
  · have count := ring.full_iff.mp full
    have length : (queue.length + 1).toNat = queue.capacity := by
      have one : (1 : UInt32).toNat = 1 := rfl
      rw [UInt32.toNat_add, one, ring.length, count]
      exact Nat.mod_eq_of_lt (by omega)
    have larger : (computeCapacity (queue.length + 1)).toNat =
        queue.capacity + queue.capacity / 2 := by
      rw [toNat_computeCapacity (by omega) (by omega), length]
    rw [if_pos full]
    rcases Nat.lt_or_ge maxHeapSize
        (TaggedArray.computeSize (computeCapacity (queue.length + 1)).toNat) with large | fits
    · refine .inr ⟨?_, full, large⟩
      rw [copyQueue, if_neg (by omega)]
      rfl
    · obtain ⟨a, copied, size, slots⟩ := copyQueue_spec ring fits
      refine .inl ⟨_, by rw [copied]; rfl, ?_, ?_⟩
      · have bound : queue.capacity + queue.capacity / 2 ≤ 2 ^ 27 := by
          rw [TaggedArray.computeSize, larger] at fits
          unfold maxHeapSizeLimit at bounded
          omega
        have new : a.length.toNat = queue.capacity + queue.capacity / 2 := by rw [size, larger]; rfl
        have last : (queue.elementsLength - 1).toNat = l.length := by
          have one : (1 : UInt32).toNat = 1 := rfl
          rw [UInt32.toNat_sub, one, ring.toNat_elementsLength]
          omega
        refine ⟨?_, ?_, ring.length, ?_, ?_, ?_, ?_⟩ <;> simp only [capacity] <;> rw [new]
        · omega
        · exact bound
        · exact Nat.lt_of_lt_of_le (by decide : (0 : UInt32).toNat < 8) (by omega)
        · omega
        · have zero : (0 : UInt32).toNat = 0 := rfl
          rw [last, zero, Nat.zero_add, Nat.mod_eq_of_lt (by omega)]
        · have copy : ringContent (fun i : Nat => a.get i) (queue.capacity + queue.capacity / 2) 0
              l.length = ringContent (fun i : Nat => queue.elements.get i) queue.capacity
                queue.front.toNat l.length := ringContent_copy (by omega) slots
          exact copy.trans ring.content
      · simp only [capacity]
        rw [size, larger, Int.toNat_natCast]
        omega
  · rw [if_neg full]
    have := mt ring.full_iff.mpr full
    exact .inl ⟨queue, rfl, ring, by omega⟩

/-! ## `Add` and `Pop` -/

theorem Ring.add (ring : Ring queue l) (free : l.length + 1 < queue.capacity) (v : JSTaggedValue α) :
    Ring { queue with
      elements := queue.elements.set queue.tail.toNat v
      length := queue.length + 1
      tail := (queue.tail + 1) % queue.elementsLength } (l ++ [v]) := by
  have small := ring.small
  have one : (1 : UInt32).toNat = 1 := rfl
  refine ⟨ring.room, ring.small, ?_, ring.inside, ?_, ?_, ?_⟩
  · simp only [List.length_append, List.length_singleton]
    rw [UInt32.toNat_add, one, ring.length]
    exact Nat.mod_eq_of_lt (by omega)
  · rw [List.length_append, List.length_singleton]
    exact free
  · simp only [List.length_append, List.length_singleton]
    rw [ring.toNat_next ring.tail_lt, ring.tail, Nat.mod_add_mod]
    rfl
  · have slots : (fun i : Nat => (queue.elements.set queue.tail.toNat v).get i) =
        Function.update (fun i : Nat => queue.elements.get i)
          ((queue.front.toNat + l.length) % queue.capacity) v := by
      funext i
      simp only [TaggedArray.get_set, ring.tail, Function.update_apply, Int.natCast_inj]
    simp only [List.length_append, List.length_singleton]
    rw [slots]
    exact (ringContent_push ring.free v).trans (by rw [ring.content])

theorem add_spec {maxHeapSize : Nat} (bounded : maxHeapSize ≤ maxHeapSizeLimit) (ring : Ring queue l)
    (v : JSTaggedValue α) :
    (∃ queue', queue.add maxHeapSize v = some queue' ∧ Ring queue' (l ++ [v])) ∨
      (queue.add maxHeapSize v = none ∧ NeedsMemory maxHeapSize queue) := by
  rcases growCapacity_spec bounded ring with ⟨queue', grown, ring', free⟩ | ⟨stuck, needs⟩
  · exact .inl ⟨_, by rw [JSAPIQueue.add, grown]; rfl, ring'.add free v⟩
  · exact .inr ⟨by rw [JSAPIQueue.add, stuck]; rfl, needs⟩

theorem Ring.not_lt_one (ring : Ring queue l) : queue.length < 1 ↔ l = [] := by
  have one : (1 : UInt32).toNat = 1 := rfl
  rw [UInt32.lt_iff_toNat_lt, ring.length, one, Nat.lt_one_iff, List.length_eq_zero_iff]

theorem pop_spec (ring : Ring queue l) :
    queue.pop.1 = l.headD .undefined ∧ Ring queue.pop.2 l.tail := by
  cases l with
  | nil =>
    rw [pop, if_pos (ring.not_lt_one.mpr rfl)]
    exact ⟨rfl, ring⟩
  | cons x xs =>
    rw [pop, if_neg (mt ring.not_lt_one.mp (List.cons_ne_nil x xs))]
    have content := ring.content
    rw [List.length_cons, ringContent_pop ring.inside] at content
    obtain ⟨first, rest⟩ := List.cons.inj content
    have free := ring.free
    have length := ring.length
    rw [List.length_cons] at free length
    have next := ring.toNat_next ring.inside
    have one : (1 : UInt32).toNat = 1 := rfl
    refine ⟨first, ring.room, ring.small, ?_, ?_, ?_, ?_, ?_⟩ <;> simp only [List.tail_cons]
    · rw [UInt32.toNat_sub_of_le _ _ (by rw [UInt32.le_iff_toNat_le, length, one]; omega), length, one,
        Nat.add_sub_cancel]
    · rw [next]
      exact Nat.mod_lt _ (by have := ring.room; omega)
    · exact Nat.lt_of_succ_lt free
    · have tail := ring.tail
      rw [List.length_cons] at tail
      change queue.tail.toNat = (_ + xs.length) % queue.capacity
      rw [next, tail, Nat.mod_add_mod]
      congr 1
      omega
    · rw [next]
      exact rest

/-! ## `Get` and `Set` -/

/-- The slot that `Get` reads. -/
theorem Ring.toNat_curIndex (ring : Ring queue l) {i : UInt32} (below : i.toNat < l.length) :
    ((queue.front + i) % queue.elementsLength).toNat =
      (queue.front.toNat + i.toNat) % queue.capacity := by
  have small := ring.small
  have inside := ring.inside
  have free := ring.free
  rw [UInt32.toNat_mod, UInt32.toNat_add, ring.toNat_elementsLength,
    Nat.mod_eq_of_lt (show queue.front.toNat + i.toNat < 2 ^ 32 by omega)]

theorem Ring.below_iff (ring : Ring queue l) {i : UInt32} : i < queue.length ↔ i.toNat < l.length := by
  rw [UInt32.lt_iff_toNat_lt, ring.length]

theorem Ring.get_eq (ring : Ring queue l) {i : UInt32} (below : i < queue.length) :
    queue.get i = .ok (queue.elements.get ((queue.front.toNat + i.toNat) % queue.capacity : Nat)) := by
  rw [get, if_neg (UInt32.not_le.mpr below)]
  simp only
  rw [ring.toNat_curIndex (ring.below_iff.mp below)]

/-- `Get` after `Set`. -/
theorem Ring.get_set (ring : Ring queue l) {i j : UInt32} (hj : j < queue.length)
    (v : JSTaggedValue α) :
    get { queue with elements := queue.elements.set i.toNat v } j =
      if (queue.front.toNat + j.toNat) % queue.capacity = i.toNat then .ok v else queue.get j := by
  rw [ring.get_eq hj, get, if_neg (UInt32.not_le.mpr hj)]
  change Except.ok ((queue.elements.set i.toNat v).get
    ((queue.front + j) % queue.elementsLength).toNat) = _
  rw [ring.toNat_curIndex (ring.below_iff.mp hj), TaggedArray.get_set]
  simp only [Int.natCast_inj]
  split_ifs <;> rfl

/-- `Set` writes the slot that `Get` reads only if nothing was popped from the array. -/
theorem Ring.same_slot_iff (ring : Ring queue l) {i : UInt32} (below : i < queue.length) :
    (queue.front.toNat + i.toNat) % queue.capacity = i.toNat ↔ queue.front = 0 := by
  have inside := ring.inside
  have free := ring.free
  have hi := ring.below_iff.mp below
  have zero : (0 : UInt32).toNat = 0 := rfl
  rw [← UInt32.toNat_inj, zero, Nat.add_comm]
  constructor
  · intro same
    have here : (i.toNat + 0) % queue.capacity = i.toNat := Nat.mod_eq_of_lt (by omega)
    exact ring_slot_inj inside (by omega) (same.trans here.symm)
  · intro first
    rw [first]
    exact Nat.mod_eq_of_lt (by omega)

/-- `Set(i, v)` stores `v` under the index `i` and nothing else. -/
def SetsOnly (queue : JSAPIQueue α) (i : UInt32) (v : JSTaggedValue α) : Prop :=
  ∃ queue', queue.set i v = .ok queue' ∧ queue'.get i = .ok v ∧
    ∀ j < queue.length, j ≠ i → queue'.get j = queue.get j

/-- What `Set(i, v)` writes to the slot `i` is `v` already, and so is the element `i`. -/
def WritesNothing (queue : JSAPIQueue α) (i : UInt32) (v : JSTaggedValue α) : Prop :=
  queue.get i = .ok v ∧ ∀ j < queue.length, j ≠ i →
    (queue.front.toNat + j.toNat) % queue.capacity = i.toNat → queue.get j = .ok v

theorem Ring.setsOnly_iff (ring : Ring queue l) {i : UInt32} (below : i < queue.length)
    (v : JSTaggedValue α) : SetsOnly queue i v ↔ queue.front = 0 ∨ WritesNothing queue i v := by
  have stored : queue.set i v = .ok { queue with elements := queue.elements.set i.toNat v } :=
    if_neg (UInt32.not_le.mpr below)
  have same := ring.same_slot_iff below
  constructor
  · rintro ⟨queue', set, here, others⟩
    rw [stored] at set
    cases set
    rw [ring.get_set below] at here
    by_cases first : queue.front = 0
    · exact .inl first
    · rw [if_neg (mt same.mp first)] at here
      refine .inr ⟨here, fun j hj other slot => ?_⟩
      rw [← others j hj other, ring.get_set hj, if_pos slot]
  · intro condition
    refine ⟨_, stored, ?_, fun j hj other => ?_⟩ <;> rw [ring.get_set (by assumption)]
    · rcases condition with first | ⟨here, -⟩
      · rw [if_pos (same.mpr first)]
      · rw [here, ite_self]
    · rcases condition with first | ⟨-, others⟩
      · have slot := (ring.same_slot_iff hj).mpr first
        rw [if_neg]
        rw [slot, UInt32.toNat_inj]
        exact other
      · split_ifs with slot
        · exact (others j hj other slot).symm
        · rfl

/-! ## Runs -/

inductive Op (α : Type) where
  | add (value : JSTaggedValue α)
  | pop

/-- One operation and what it returns, in a heap of `maxHeapSize` bytes. -/
def step (maxHeapSize : Nat) (queue : JSAPIQueue α) :
    Op α → Option (JSAPIQueue α × Option (JSTaggedValue α))
  | .add v => (queue.add maxHeapSize v).map fun queue' => (queue', none)
  | .pop => some (queue.pop.2, some queue.pop.1)

/-- The mathematical queue. -/
def fifo (l : List (JSTaggedValue α)) : Op α → List (JSTaggedValue α)
  | .add v => l ++ [v]
  | .pop => l.tail

theorem ring_step {maxHeapSize : Nat} (bounded : maxHeapSize ≤ maxHeapSizeLimit) (past : List (Op α))
    (o : Op α) (queue' : JSAPIQueue α) (r : Option (JSTaggedValue α))
    (ring : Ring queue (past.foldl fifo [])) (next : queue.step maxHeapSize o = some (queue', r)) :
    Ring queue' ((past ++ [o]).foldl fifo []) := by
  rw [List.foldl_append]
  cases o with
  | add v =>
    obtain ⟨made, added, same⟩ := Option.map_eq_some_iff.mp next
    cases same
    rcases add_spec bounded ring v with ⟨made', added', ring'⟩ | ⟨stuck, -⟩
    · rw [added] at added'
      cases added'
      exact ring'
    · rw [stuck] at added
      cases added
  | pop =>
    cases next
    exact (pop_spec ring).2

theorem ring_of_run {maxHeapSize : Nat} (bounded : maxHeapSize ≤ maxHeapSizeLimit) {ops : List (Op α)}
    {rs : List (Option (JSTaggedValue α))}
    (reached : trace (step maxHeapSize) construct ops = some (queue, rs)) :
    Ring queue (ops.foldl fifo []) :=
  trace_reaches (R := fun past queue => Ring queue (past.foldl fifo []))
    (fun past _ o queue' r ring next => ring_step bounded past o queue' r ring next)
    ops [] construct queue rs ring_construct reached

/-- What can be read of a container that holds `l`, from the oldest element on. -/
structure Reads (queue : JSAPIQueue α) (l : List (JSTaggedValue α)) : Prop where
  getFirst : queue.getFirst = l.headD .undefined
  get : ∀ i : UInt32, ∀ below : i.toNat < l.length, queue.get i = .ok l[i.toNat]
  length : queue.length.toNat = l.length
  distance : (queue.length.toNat : Int) =
    ((queue.tail.toNat : Int) - queue.front.toNat) % queue.capacity
  free : queue.length.toNat < queue.capacity

theorem Ring.reads (ring : Ring queue l) : Reads queue l := by
  have free := ring.free
  have content : ∀ i, i < l.length →
      l[i]? = some (queue.elements.get ((queue.front.toNat + i) % queue.capacity : Nat)) := by
    intro i below
    have slot : (ringContent (fun i : Nat => queue.elements.get i) queue.capacity
        queue.front.toNat l.length)[i]? = _ := getElem?_ringContent below
    rwa [ring.content] at slot
  refine ⟨?_, fun i below => ?_, ring.length, ?_, by rw [ring.length]; exact free⟩
  · rw [getFirst]
    cases l with
    | nil => rw [if_pos (ring.not_lt_one.mpr rfl), List.headD_nil]
    | cons x xs =>
      have first := content 0 (Nat.succ_pos _)
      rw [Nat.add_zero, Nat.mod_eq_of_lt ring.inside, List.getElem?_cons_zero] at first
      rw [if_neg (mt ring.not_lt_one.mp (List.cons_ne_nil x xs)), List.headD_cons]
      exact (Option.some.inj first).symm
  · have slot := content i.toNat below
    rw [List.getElem?_eq_getElem below] at slot
    rw [ring.get_eq (ring.below_iff.mpr below), Option.some.inj slot]
  · have tail : (queue.tail.toNat : Int) =
        ((queue.front.toNat : Int) + l.length) % queue.capacity := by
      rw [ring.tail]
      push_cast
      rfl
    rw [tail, Int.emod_sub_emod, add_sub_cancel_left, ring.length]
    exact (Int.emod_eq_of_lt (Int.natCast_nonneg _) (Int.ofNat_lt.mpr free)).symm

/-- What an operation answers after others: `Pop` the oldest element. -/
def AnswersFifo (past : List (Op α)) : Op α → Option (JSTaggedValue α) → Prop
  | .add _, answer => answer = none
  | .pop, answer => answer = some ((past.foldl fifo []).headD .undefined)

/-- `Add` for which the heap has no room. -/
def OutOfMemory (maxHeapSize : Nat) (queue : JSAPIQueue α) : Op α → Prop
  | .add _ => NeedsMemory maxHeapSize queue
  | .pop => False

theorem step_spec {maxHeapSize : Nat} (bounded : maxHeapSize ≤ maxHeapSizeLimit) (past : List (Op α))
    (o : Op α) (ring : Ring queue (past.foldl fifo [])) :
    (∃ queue' answer, queue.step maxHeapSize o = some (queue', answer) ∧
        Ring queue' ((past ++ [o]).foldl fifo []) ∧ AnswersFifo past o answer) ∨
      (queue.step maxHeapSize o = none ∧ OutOfMemory maxHeapSize queue o) := by
  rw [List.foldl_append]
  cases o with
  | add v =>
    rcases add_spec bounded ring v with ⟨queue', added, ring'⟩ | ⟨stuck, needs⟩
    · exact .inl ⟨queue', none, by rw [step, added]; rfl, ring', rfl⟩
    · exact .inr ⟨by rw [step, stuck]; rfl, needs⟩
  | pop =>
    obtain ⟨first, ring'⟩ := pop_spec ring
    exact .inl ⟨queue.pop.2, some queue.pop.1, rfl, ring', congrArg some first⟩

/-- Any run of `Add` and `Pop` is that of a mathematical queue, up to an `Add` that the heap
    has no room for. -/
theorem jsapiQueue_fifo_of_run (maxHeapSize : Nat) (bounded : maxHeapSize ≤ maxHeapSizeLimit)
    (ops : List (Op α)) :
    (∃ queue rs, trace (step maxHeapSize) construct ops = some (queue, rs) ∧
        Reads queue (ops.foldl fifo []) ∧ Answers AnswersFifo [] ops rs) ∨
      ∃ done o rest queue rs, ops = done ++ o :: rest ∧
        trace (step maxHeapSize) construct done = some (queue, rs) ∧
        Reads queue (done.foldl fifo []) ∧ Answers AnswersFifo [] done rs ∧
        queue.step maxHeapSize o = none ∧ OutOfMemory maxHeapSize queue o := by
  have rule := trace_or_stuck (P := fun _ : Op α => True)
    (R := fun past queue => Ring queue (past.foldl fifo [])) (fun past queue o ring _ =>
      step_spec bounded past o ring)
  rcases rule ops [] construct ring_construct (fun _ _ => trivial) with
    ⟨queue, rs, run, ring, answers⟩ | ⟨done, o, rest, queue, rs, split, run, ring, answers, stuck⟩
  · exact .inl ⟨queue, rs, run, ring.reads, answers⟩
  · exact .inr ⟨done, o, rest, queue, rs, split, run, ring.reads, answers, stuck⟩

/-- Six elements of which five leave, and nine more: of the eight slots the last ones are used before the first
    ones again, and then the ring grows. -/
def wrapping : List (Op Unit) :=
  (List.range 6).map (fun n : Nat => .add (.int n)) ++ List.replicate 5 .pop ++
    (List.range 9).map fun n : Nat => .add (.int (n + 6))

theorem jsapiQueue_fifo_of_run_grown :
    (∃ queue rs, trace (step maxHeapSizeLimit) (construct : JSAPIQueue Unit) wrapping = some (queue, rs) ∧
        Reads queue (wrapping.foldl fifo []) ∧ Answers AnswersFifo [] wrapping rs) ∨
      ∃ done o rest queue rs, wrapping = done ++ o :: rest ∧
        trace (step maxHeapSizeLimit) (construct : JSAPIQueue Unit) done = some (queue, rs) ∧
        Reads queue (done.foldl fifo []) ∧ Answers AnswersFifo [] done rs ∧
        queue.step maxHeapSizeLimit o = none ∧ OutOfMemory maxHeapSizeLimit queue o :=
  jsapiQueue_fifo_of_run maxHeapSizeLimit (Nat.le_refl _) wrapping

/-- When `Set` does what it is for. -/
theorem jsapiQueue_set_of_run (maxHeapSize : Nat) (bounded : maxHeapSize ≤ maxHeapSizeLimit)
    (ops : List (Op α)) (queue : JSAPIQueue α) (rs : List (Option (JSTaggedValue α)))
    (reached : trace (step maxHeapSize) construct ops = some (queue, rs)) (i : UInt32)
    (below : i < queue.length) (v : JSTaggedValue α) :
    SetsOnly queue i v ↔ queue.front = 0 ∨ WritesNothing queue i v :=
  (ring_of_run bounded reached).setsOnly_iff below v

theorem jsapiQueue_set_of_run_unpopped :
    ∃ (queue : JSAPIQueue Unit) (rs : List (Option (JSTaggedValue Unit))),
      trace (step maxHeapSizeLimit) construct [.add (.int 1), .add (.int 2)] = some (queue, rs) ∧
        queue.front = 0 ∧ SetsOnly queue 1 (.int 9) := by
  refine ⟨_, _, rfl, rfl, ?_⟩
  apply (jsapiQueue_set_of_run maxHeapSizeLimit (Nat.le_refl _) [.add (.int 1), .add (.int 2)] _ _ rfl
    1 (by decide) _).mpr
  exact .inl rfl

/-- After a `Pop` the elements are `[2]`, and `Set(0, 9)` writes to the slot that the front has left. -/
theorem jsapiQueue_set_fails_after_pop :
    ∃ (queue : JSAPIQueue Unit) (rs : List (Option (JSTaggedValue Unit))),
      trace (step maxHeapSizeLimit) construct [.add (.int 1), .add (.int 2), .pop] = some (queue, rs) ∧
        0 < queue.length ∧
        (∃ queue', queue.set 0 (.int 9) = .ok queue' ∧ queue'.get 0 = .ok (.int 2)) ∧
        ¬ SetsOnly queue 0 (.int 9) := by
  refine ⟨_, _, rfl, by decide, ⟨_, rfl, rfl⟩, ?_⟩
  rintro ⟨queue', set, here, -⟩
  cases set
  cases here

end JSAPIQueue

end ArkRuntime
