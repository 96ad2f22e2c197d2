import ArkRuntime.Queue.Model
import ArkRuntime.Misc.RingBuffer
import ArkRuntime.Misc.Run

/-!
# `TaggedQueue` is a queue

Every run of `Push` and `Pop` from the queue without slots is a run of the mathematical queue, up to an
allocation that fails. The capacity of an array that fits into the heap is so small that no sum of two
indices wraps around.
-/

namespace ArkRuntime

namespace TaggedQueue

variable {α : Type}

/-! ## The content of the array -/

@[ext]
structure View (α : Type) where
  capacity : UInt32
  start : UInt32
  last : UInt32
  slot : Nat → JSTaggedValue α

def view (q : TaggedQueue α) : View α where
  capacity := q.getCapacity
  start := q.getStart
  last := q.getEnd
  slot i := q.toTaggedArray.get ((i + 3 : Nat) : Int)

variable {q : TaggedQueue α}

theorem getArrayLength_setArray (i j : UInt32) (v : JSTaggedValue α) :
    (q.setArray i v).getArrayLength j =
      if j = i then UInt32.ofNat v.getInt.toNat else q.getArrayLength j := by
  have place : ((j.toNat : Int) = i.toNat) ↔ j = i := by rw [Int.natCast_inj, UInt32.toNat_inj]
  simp only [getArrayLength, setArray, TaggedArray.get_set, place]
  split_ifs <;> rfl

variable {maxHeapSize : Nat} {i n : UInt32} {x : JSTaggedValue α} {xs : List (JSTaggedValue α)}

theorem toNat_queueToArrayIndex (small : i.toNat + 3 < 2 ^ 32) :
    (queueToArrayIndex i).toNat = i.toNat + 3 := by
  rw [queueToArrayIndex, UInt32.toNat_add]
  exact Nat.mod_eq_of_lt small

theorem get_eq (small : i.toNat + 3 < 2 ^ 32) : q.get i = q.view.slot i.toNat := by
  rw [get, toNat_queueToArrayIndex small]
  rfl

theorem view_set (small : i.toNat + 3 < 2 ^ 32) (v : JSTaggedValue α) :
    (q.set i v).view = { q.view with slot := Function.update q.view.slot i.toNat v } := by
  have index := toNat_queueToArrayIndex small
  have apart (j : UInt32) (header : j.toNat < 3) : ¬ j = queueToArrayIndex i := by
    intro same
    rw [same] at header
    omega
  refine View.ext ?_ ?_ ?_ (funext fun j => ?_)
  · exact (getArrayLength_setArray _ _ _).trans (if_neg (apart 0 (by decide)))
  · exact (getArrayLength_setArray _ _ _).trans (if_neg (apart 1 (by decide)))
  · exact (getArrayLength_setArray _ _ _).trans (if_neg (apart 2 (by decide)))
  · simp only [view, set, setArray, TaggedArray.get_set, index, Function.update_apply]
    have place : ((j + 3 : Nat) : Int) = ((i.toNat + 3 : Nat) : Int) ↔ j = i.toNat := by omega
    simp only [place]

/-- A write to the header leaves the slots alone. -/
theorem slot_setArray (header : i.toNat < 3) (v : JSTaggedValue α) :
    (q.setArray i v).view.slot = q.view.slot := by
  funext j
  simp only [view, setArray, TaggedArray.get_set]
  rw [if_neg (by omega)]

theorem view_setCapacity (c : UInt32) : (q.setCapacity c).view = { q.view with capacity := c } := by
  refine View.ext ?_ ?_ ?_ (slot_setArray (by decide) _) <;>
    exact (getArrayLength_setArray _ _ _).trans (by simp [view, getStart, getEnd])

theorem view_setStart (c : UInt32) : (q.setStart c).view = { q.view with start := c } := by
  refine View.ext ?_ ?_ ?_ (slot_setArray (by decide) _) <;>
    exact (getArrayLength_setArray _ _ _).trans (by simp [view, getCapacity, getEnd])

theorem view_setEnd (c : UInt32) : (q.setEnd c).view = { q.view with last := c } := by
  refine View.ext ?_ ?_ ?_ (slot_setArray (by decide) _) <;>
    exact (getArrayLength_setArray _ _ _).trans (by simp [view, getCapacity, getStart])

/-! ## The ring -/

/-- The slots in use, from the start on, are the elements of the queue; one slot is free. -/
structure Ring (v : View α) (l : List (JSTaggedValue α)) : Prop where
  room : 2 ≤ v.capacity.toNat
  small : v.capacity.toNat ≤ 2 ^ 27
  inside : v.start.toNat < v.capacity.toNat
  free : l.length < v.capacity.toNat
  last : v.last.toNat = (v.start.toNat + l.length) % v.capacity.toNat
  content : ringContent v.slot v.capacity.toNat v.start.toNat l.length = l

/-- The queue has the elements `l`. -/
def Contains (q : TaggedQueue α) (l : List (JSTaggedValue α)) : Prop :=
  (q.getCapacity = 0 ∧ q.getStart = 0 ∧ q.getEnd = 0 ∧ l = []) ∨ Ring q.view l

variable {l : List (JSTaggedValue α)}

theorem Ring.last_lt {v : View α} (ring : Ring v l) : v.last.toNat < v.capacity.toNat := by
  have room := ring.room
  rw [ring.last]
  exact Nat.mod_lt _ (by omega)

theorem Ring.empty_iff (ring : Ring q.view l) : q.empty = true ↔ l = [] := by
  have here : (q.view.start.toNat + 0) % q.view.capacity.toNat = q.view.start.toNat :=
    Nat.mod_eq_of_lt ring.inside
  have same : q.getStart = q.getEnd ↔ q.view.start.toNat = q.view.last.toNat := by
    rw [UInt32.toNat_inj]
    rfl
  rw [empty, decide_eq_true_eq, same, ring.last]
  constructor
  · intro meet
    have none := ring_slot_inj (by have := ring.room; omega) ring.free (here.trans meet)
    exact List.length_eq_zero_iff.mp none.symm
  · intro none
    rw [none]
    exact here.symm

/-- Twice the capacity is below the bound of the indices, so the difference of the ends is exact. -/
theorem Ring.size_eq (ring : Ring q.view l) : q.size.toNat = l.length := by
  have room : 2 ≤ q.getCapacity.toNat := ring.room
  have small : q.getCapacity.toNat ≤ 2 ^ 27 := ring.small
  have inside : q.getStart.toNat < q.getCapacity.toNat := ring.inside
  have free : l.length < q.getCapacity.toNat := ring.free
  have last : q.getEnd.toNat = (q.getStart.toNat + l.length) % q.getCapacity.toNat := ring.last
  have some : q.getCapacity ≠ 0 := by
    intro none
    rw [none] at room
    exact absurd room (by decide)
  simp only [size, some, if_false]
  rw [UInt32.toNat_mod, UInt32.toNat_add, UInt32.toNat_sub, last]
  generalize q.getCapacity.toNat = c at *
  generalize q.getStart.toNat = s at *
  generalize l.length = n at *
  rcases Nat.lt_or_ge (s + n) c with below | wrapped
  · rw [Nat.mod_eq_of_lt below, show ((2 ^ 32 - s + (s + n)) % 2 ^ 32 + c) % 2 ^ 32 = n + c by omega,
      Nat.add_mod_right, Nat.mod_eq_of_lt free]
  · rw [Nat.mod_eq_sub_mod wrapped, Nat.mod_eq_of_lt (show s + n - c < c by omega),
      show ((2 ^ 32 - s + (s + n - c)) % 2 ^ 32 + c) % 2 ^ 32 = n by omega, Nat.mod_eq_of_lt free]

/-- Slots of the ring have an index in the array. -/
theorem Ring.index_lt (ring : Ring q.view l) (below : i.toNat < q.getCapacity.toNat) :
    i.toNat + 3 < 2 ^ 32 := by
  have small : q.getCapacity.toNat ≤ 2 ^ 27 := ring.small
  omega

theorem Ring.get_start (ring : Ring q.view (x :: xs)) : q.get q.getStart = x := by
  have content := ring.content
  rw [List.length_cons, ringContent_pop ring.inside] at content
  rw [get_eq (i := q.getStart) (ring.index_lt ring.inside)]
  exact (List.cons.inj content).1

theorem Ring.not_empty (ring : Ring q.view (x :: xs)) : ¬ q.empty = true := by
  rw [ring.empty_iff]
  exact List.cons_ne_nil x xs

/-! ## `Pop` -/

theorem Ring.pop (ring : Ring q.view (x :: xs)) :
    Ring ((q.set q.getStart .hole).setStart
      ((q.getStart + 1) % (q.set q.getStart .hole).getCapacity)).view xs := by
  have written := view_set (q := q) (i := q.getStart) (ring.index_lt ring.inside) .hole
  have capacity : (q.set q.getStart .hole).getCapacity = q.getCapacity := congrArg (·.capacity) written
  have next : ((q.getStart + 1) % q.getCapacity).toNat =
      (q.view.start.toNat + 1) % q.view.capacity.toNat := toNat_next ring.inside ring.small
  have room := ring.room
  have free := ring.free
  rw [List.length_cons] at free
  rw [view_setStart, written, capacity]
  refine ⟨room, ring.small, ?_, Nat.lt_of_succ_lt free, ?_, ?_⟩
  · simp only
    rw [next]
    exact Nat.mod_lt _ (by omega)
  · simp only
    have last := ring.last
    rw [List.length_cons] at last
    rw [next, last, Nat.mod_add_mod]
    congr 1
    omega
  · simp only
    rw [next]
    have content := ring.content
    rw [List.length_cons, ringContent_pop ring.inside] at content
    rw [ringContent_update]
    · exact (List.cons.inj content).2
    · intro i below same
      have start : (q.view.start.toNat + 0) % q.view.capacity.toNat = q.getStart.toNat :=
        Nat.mod_eq_of_lt ring.inside
      have shifted : (q.view.start.toNat + (i + 1)) % q.view.capacity.toNat =
          (q.view.start.toNat + 0) % q.view.capacity.toNat := by
        rw [start, ← same, Nat.mod_add_mod]
        congr 1
        omega
      have := ring_slot_inj (by omega) (by omega) shifted
      omega

theorem pop_spec (contains : Contains q l) :
    q.pop.1 = l.headD .hole ∧ Contains q.pop.2 l.tail := by
  rcases contains with ⟨capacity, start, last, rfl⟩ | ring
  · have empty : q.empty = true := by rw [empty, start, last]; rfl
    rw [pop, if_pos empty]
    exact ⟨rfl, .inl ⟨capacity, start, last, rfl⟩⟩
  · cases l with
    | nil =>
      rw [pop, if_pos (ring.empty_iff.mpr rfl)]
      exact ⟨rfl, .inr ring⟩
    | cons x xs =>
      simp only [pop, ring.not_empty, if_false, Bool.false_eq_true]
      exact ⟨ring.get_start, .inr ring.pop⟩

/-! ## `Push` -/

theorem view_newTaggedQueue (fits : TaggedArray.computeSize (queueToArrayIndex n).toNat ≤ maxHeapSize) :
    ∃ q : TaggedQueue α, newTaggedQueue maxHeapSize n = some q ∧
      q.view = ⟨n, 0, 0, fun _ => .hole⟩ := by
  refine ⟨_, if_pos fits, ?_⟩
  rw [view_setCapacity, view_setEnd, view_setStart]
  rfl

theorem Ring.push_free (ring : Ring q.view l) (free : l.length + 1 < q.getCapacity.toNat)
    (v : JSTaggedValue α) :
    Ring ((q.set q.getEnd v).setEnd ((q.getEnd + 1) % q.getCapacity)).view (l ++ [v]) := by
  have below : q.getEnd.toNat < q.getCapacity.toNat := ring.last_lt
  have written := view_set (q := q) (ring.index_lt below) v
  have next : ((q.getEnd + 1) % q.getCapacity).toNat = (q.getEnd.toNat + 1) % q.view.capacity.toNat :=
    toNat_next below ring.small
  have last : q.getEnd.toNat = (q.view.start.toNat + l.length) % q.view.capacity.toNat := ring.last
  rw [view_setEnd, written]
  refine ⟨ring.room, ring.small, ring.inside, ?_, ?_, ?_⟩
  · rw [List.length_append, List.length_singleton]
    exact free
  · simp only
    rw [next, last, List.length_append, List.length_singleton, Nat.mod_add_mod]
    congr 1
  · simp only
    rw [List.length_append, List.length_singleton, last, ringContent_push ring.free, ring.content]

/-- The copy loop of `Push` before its `i`-th round. -/
structure Copied (q newQueue : TaggedQueue α) (i : Nat) (s : TaggedQueue α × UInt32 × UInt32) :
    Prop where
  header : s.1.view = { newQueue.view with slot := s.1.view.slot }
  slots : ∀ j < i, s.1.view.slot j =
    q.view.slot ((q.view.start.toNat + j) % q.view.capacity.toNat)
  index : s.2.1.toNat = (q.view.start.toNat + i) % q.view.capacity.toNat
  newEnd : s.2.2.toNat = i

theorem copied_step {newQueue : TaggedQueue α} {i : Nat} {s : TaggedQueue α × UInt32 × UInt32}
    (ring : Ring q.view l) (below : i < l.length) (copied : Copied q newQueue i s) :
    Copied q newQueue (i + 1) (q.copyStep q.getCapacity s) := by
  have free := ring.free
  have small := ring.small
  have room := ring.room
  have inside : s.2.1.toNat < q.getCapacity.toNat := by
    rw [copied.index]
    exact Nat.mod_lt _ (by omega)
  have place : s.2.2.toNat + 3 < 2 ^ 32 := by
    rw [copied.newEnd]
    omega
  have written := view_set (q := s.1) place (q.get s.2.1)
  refine ⟨?_, ?_, ?_, ?_⟩
  · simp only [copyStep]
    rw [written, copied.header]
  · intro j less
    simp only [copyStep]
    rw [written, copied.newEnd]
    simp only
    rcases Nat.lt_succ_iff_lt_or_eq.mp less with less | rfl
    · rw [Function.update_of_ne (by omega)]
      exact copied.slots j less
    · rw [Function.update_self, get_eq (ring.index_lt inside), copied.index]
  · simp only [copyStep]
    rw [toNat_next inside small, copied.index]
    change (_ % q.view.capacity.toNat + 1) % q.view.capacity.toNat = _
    rw [Nat.mod_add_mod]
    congr 1
  · simp only [copyStep]
    have one : (1 : UInt32).toNat = 1 := rfl
    rw [UInt32.toNat_add, one, copied.newEnd]
    exact Nat.mod_eq_of_lt (by omega)

theorem copied_all (newQueue : TaggedQueue α) (ring : Ring q.view l) :
    Copied q newQueue l.length
      (forLoop (fun _ => q.copyStep q.getCapacity) l.length (newQueue, q.getStart, 0)) := by
  apply forLoop_spec (I := fun i s => Copied q newQueue i s)
  · exact ⟨rfl, fun j less => absurd less (Nat.not_lt_zero j), (Nat.mod_eq_of_lt ring.inside).symm, rfl⟩
  · exact fun i s below copied => copied_step ring below copied

/-- The array that `Push` needs, if it needs a new one. -/
def neededLength (q : TaggedQueue α) : Option UInt32 :=
  if q.getCapacity = 0 then some minCapacity
  else if (q.getEnd + 1) % q.getCapacity = q.getStart then some (q.getCapacity + (q.getCapacity >>> 1))
  else none

/-- The slot behind the last one is the first one when one slot is free. -/
theorem Ring.full_iff (ring : Ring q.view l) :
    (q.getEnd + 1) % q.getCapacity = q.getStart ↔ l.length + 1 = q.getCapacity.toNat := by
  have next : ((q.getEnd + 1) % q.getCapacity).toNat =
      (q.view.start.toNat + (l.length + 1)) % q.view.capacity.toNat := by
    have step : ((q.getEnd + 1) % q.getCapacity).toNat =
        (q.view.last.toNat + 1) % q.view.capacity.toNat := toNat_next ring.last_lt ring.small
    rw [step, ring.last, Nat.mod_add_mod]
    rfl
  rw [← UInt32.toNat_inj, next]
  exact ring_round ring.inside (Nat.succ_pos _) ring.free

/-- The array that `Push` needs is not much longer than the queue. -/
theorem toNat_neededLength_le (contains : Contains q l) (needed : q.neededLength = some n) :
    (queueToArrayIndex n).toNat ≤ 2 * l.length + 5 := by
  rcases contains with ⟨capacity, -, -, rfl⟩ | ring
  · rw [neededLength, if_pos capacity] at needed
    cases needed
    exact Nat.le_refl 5
  · have small : q.getCapacity.toNat ≤ 2 ^ 27 := ring.small
    rw [neededLength] at needed
    split_ifs at needed with none full
    · cases needed
      exact Nat.le_add_left 5 _
    · cases needed
      have larger := toNat_newCapacity small
      have length := ring.full_iff.mp full
      rw [toNat_queueToArrayIndex (by omega)]
      omega

/-- An array that fits into the heap is small. -/
theorem toNat_le_of_fits (bounded : maxHeapSize ≤ maxHeapSizeLimit) (index : n.toNat + 3 < 2 ^ 32)
    (fits : TaggedArray.computeSize (queueToArrayIndex n).toNat ≤ maxHeapSize) : n.toNat ≤ 2 ^ 27 := by
  rw [toNat_queueToArrayIndex index, TaggedArray.computeSize] at fits
  unfold maxHeapSizeLimit at bounded
  omega

/-- The first element goes into a new array of two slots. -/
theorem push_first (capacity : q.getCapacity = 0) (v : JSTaggedValue α)
    (fits : TaggedArray.computeSize (queueToArrayIndex minCapacity).toNat ≤ maxHeapSize) :
    ∃ q', q.push maxHeapSize v = some q' ∧ Ring q'.view [v] := by
  obtain ⟨made, new, view⟩ := view_newTaggedQueue (α := α) fits
  refine ⟨(((made.set 0 v).setCapacity minCapacity).setStart 0).setEnd 1, ?_, ?_⟩
  · simp [push, capacity, new]
  · have view' : ((((made.set 0 v).setCapacity minCapacity).setStart 0).setEnd 1).view =
        ⟨minCapacity, 0, 1, Function.update (fun _ => .hole) 0 v⟩ := by
      rw [view_setEnd, view_setStart, view_setCapacity, view_set (by decide), view]
      rfl
    rw [view']
    have two : minCapacity.toNat = 2 := rfl
    have zero : (0 : UInt32).toNat = 0 := rfl
    have one : (1 : UInt32).toNat = 1 := rfl
    refine ⟨?_, ?_, ?_, ?_, ?_, ?_⟩ <;> simp [two, zero, one, ringContent]

/-- The slots go into an array half as large again. -/
theorem push_full (bounded : maxHeapSize ≤ maxHeapSizeLimit) (ring : Ring q.view l)
    (full : l.length + 1 = q.getCapacity.toNat) (v : JSTaggedValue α) (fits : TaggedArray.computeSize
      (queueToArrayIndex (q.getCapacity + (q.getCapacity >>> 1))).toNat ≤ maxHeapSize) :
    ∃ q', (do
      let newQueue ← newTaggedQueue maxHeapSize (q.getCapacity + (q.getCapacity >>> 1))
      let (newQueue, _, newEnd) :=
        forLoop (fun _ => q.copyStep q.getCapacity) q.size.toNat (newQueue, q.getStart, 0)
      let newQueue := newQueue.setCapacity (q.getCapacity + (q.getCapacity >>> 1))
      let newQueue := newQueue.setStart 0
      let newQueue := newQueue.set newEnd v
      return newQueue.setEnd (newEnd + 1)) = some q' ∧ Ring q'.view (l ++ [v]) := by
  obtain ⟨made, new, view⟩ := view_newTaggedQueue (α := α) fits
  have room : 2 ≤ q.getCapacity.toNat := ring.room
  have small : q.getCapacity.toNat ≤ 2 ^ 27 := ring.small
  have larger := toNat_newCapacity small
  have bound := toNat_le_of_fits bounded (by rw [larger]; omega) fits
  have copied := copied_all made ring
  rw [new, ring.size_eq]
  refine ⟨_, rfl, ?_⟩
  generalize forLoop (fun _ => q.copyStep q.getCapacity) l.length (made, q.getStart, 0) = s at copied ⊢
  obtain ⟨newQueue, index, newEnd⟩ := s
  obtain ⟨-, slots, -, count⟩ := copied
  simp only at slots count ⊢
  have next : (newEnd + 1).toNat = l.length + 1 := by
    have one : (1 : UInt32).toNat = 1 := rfl
    rw [UInt32.toNat_add, one, count]
    exact Nat.mod_eq_of_lt (by omega)
  rw [view_setEnd, view_set (by rw [count]; omega), view_setStart, view_setCapacity, count]
  have last : (0 + l.length) % (q.getCapacity + (q.getCapacity >>> 1)).toNat = l.length := by
    rw [Nat.zero_add, Nat.mod_eq_of_lt (by rw [larger]; omega)]
  refine ⟨?_, bound, ?_, ?_, ?_, ?_⟩
  · simp only
    omega
  · simp only
    rw [larger]
    exact Nat.lt_of_lt_of_le (by decide : (0 : UInt32).toNat < 2) (by omega)
  · simp only [List.length_append, List.length_singleton]
    omega
  · simp only [List.length_append, List.length_singleton]
    have zero : (0 : UInt32).toNat = 0 := rfl
    rw [next, zero, Nat.zero_add, Nat.mod_eq_of_lt (by rw [larger]; omega)]
  · simp only [List.length_append, List.length_singleton]
    have zero : (0 : UInt32).toNat = 0 := rfl
    rw [zero]
    have free : l.length < (q.getCapacity + (q.getCapacity >>> 1)).toNat := by
      rw [larger]
      omega
    have pushed : ringContent (Function.update newQueue.view.slot ((0 + l.length) % _) v) _ 0
        (l.length + 1) = ringContent newQueue.view.slot _ 0 l.length ++ [v] := ringContent_push free v
    rw [last] at pushed
    rw [pushed, ringContent_copy (by omega) slots, ring.content]

theorem push_spec (bounded : maxHeapSize ≤ maxHeapSizeLimit) (contains : Contains q l) (v : JSTaggedValue α) :
    (∃ q', q.push maxHeapSize v = some q' ∧ Contains q' (l ++ [v])) ∨
      (q.push maxHeapSize v = none ∧ ∃ n, q.neededLength = some n ∧
        maxHeapSize < TaggedArray.computeSize (queueToArrayIndex n).toNat) := by
  rcases contains with ⟨capacity, start, last, rfl⟩ | ring
  · have needed : q.neededLength = some minCapacity := by rw [neededLength, if_pos capacity]
    rcases Nat.lt_or_ge maxHeapSize (TaggedArray.computeSize (queueToArrayIndex minCapacity).toNat) with
      large | fits
    · refine .inr ⟨?_, minCapacity, needed, large⟩
      have none : (newTaggedQueue maxHeapSize minCapacity : Option (TaggedQueue α)) = none :=
        if_neg (by omega)
      simp [push, capacity, none]
    · obtain ⟨q', run, ring⟩ := push_first capacity v fits
      exact .inl ⟨q', run, .inr ring⟩
  · have room : 2 ≤ q.getCapacity.toNat := ring.room
    have small : q.getCapacity.toNat ≤ 2 ^ 27 := ring.small
    have some : ¬ q.getCapacity = 0 := by
      intro none
      rw [none] at room
      exact absurd room (by decide)
    have isFull := ring.full_iff
    by_cases full : (q.getEnd + 1) % q.getCapacity = q.getStart
    · have larger := toNat_newCapacity small
      have needed : q.neededLength = Option.some (q.getCapacity + (q.getCapacity >>> 1)) := by
        rw [neededLength, if_neg some, if_pos full]
      have grows : ¬ q.getCapacity + (q.getCapacity >>> 1) < q.getCapacity := by
        rw [UInt32.lt_iff_toNat_lt, larger]
        omega
      have notMax : ¬ q.getCapacity = maxQueueIndex := by
        intro same
        rw [same] at small
        exact absurd small (by decide)
      simp only [push, some, full, grows, notMax, if_true, if_false]
      rcases Nat.lt_or_ge maxHeapSize (TaggedArray.computeSize
          (queueToArrayIndex (q.getCapacity + (q.getCapacity >>> 1))).toNat) with large | fits
      · refine .inr ⟨?_, _, needed, large⟩
        have none : (newTaggedQueue maxHeapSize (q.getCapacity + (q.getCapacity >>> 1)) :
            Option (TaggedQueue α)) = none := if_neg (by omega)
        rw [none]
        rfl
      · obtain ⟨q', run, ring'⟩ := push_full bounded ring (isFull.mp full) v fits
        exact .inl ⟨q', run, .inr ring'⟩
    · have free : l.length + 1 < q.getCapacity.toNat := by
        have below : l.length < q.getCapacity.toNat := ring.free
        have := mt isFull.mpr full
        omega
      refine .inl ⟨_, ?_, .inr (ring.push_free free v)⟩
      simp only [push, some, full, if_false]

/-! ## Reading -/

theorem front_eq (contains : Contains q l) : q.front = l.headD .hole := by
  rcases contains with ⟨capacity, start, last, rfl⟩ | ring
  · rw [front, if_pos (by rw [empty, start, last]; rfl)]
    rfl
  · cases l with
    | nil =>
      rw [front, if_pos (ring.empty_iff.mpr rfl)]
      rfl
    | cons x xs =>
      rw [front, if_neg ring.not_empty]
      exact ring.get_start

theorem size_eq (contains : Contains q l) : q.size.toNat = l.length := by
  rcases contains with ⟨capacity, start, last, rfl⟩ | ring
  · rw [size, if_pos capacity]
    rfl
  · exact ring.size_eq

theorem empty_iff (contains : Contains q l) : q.empty = true ↔ l = [] := by
  rcases contains with ⟨capacity, start, last, rfl⟩ | ring
  · rw [empty, start, last]
    simp
  · exact ring.empty_iff

/-! ## Runs -/

inductive Op (α : Type) where
  | push (value : JSTaggedValue α)
  | pop

/-- One operation and what it returns, in a heap of `maxHeapSize` bytes. -/
def step (maxHeapSize : Nat) (q : TaggedQueue α) :
    Op α → Option (TaggedQueue α × Option (JSTaggedValue α))
  | .push v => (q.push maxHeapSize v).map fun q' => (q', none)
  | .pop => some (q.pop.2, some q.pop.1)

/-- The mathematical queue. -/
def fifo (l : List (JSTaggedValue α)) : Op α → List (JSTaggedValue α)
  | .push v => l ++ [v]
  | .pop => l.tail

/-- What an operation returns when the operations `past` came before it. -/
def AnswersFifo (past : List (Op α)) : Op α → Option (JSTaggedValue α) → Prop
  | .push _, r => r = none
  | .pop, r => r = some ((past.foldl fifo []).headD .hole)

/-- The operation needs an array that does not fit into the heap. -/
def OutOfMemory (maxHeapSize : Nat) (q : TaggedQueue α) (o : Op α) : Prop :=
  (∃ v, o = .push v) ∧ ∃ n, q.neededLength = some n ∧
    maxHeapSize < TaggedArray.computeSize (queueToArrayIndex n).toNat

/-- What can be read from the queue. -/
structure Reads (q : TaggedQueue α) (l : List (JSTaggedValue α)) : Prop where
  front : q.front = l.headD .hole
  size : q.size.toNat = l.length
  empty : q.empty = true ↔ l = []

theorem reads_of_contains (contains : Contains q l) : Reads q l :=
  ⟨front_eq contains, size_eq contains, empty_iff contains⟩

theorem contains_empty : Contains (emptyTaggedQueue : TaggedQueue α) [] := .inl ⟨rfl, rfl, rfl, rfl⟩

theorem step_spec (bounded : maxHeapSize ≤ maxHeapSizeLimit) (past : List (Op α)) (o : Op α)
    (contains : Contains q (past.foldl fifo [])) :
    (∃ q' r, q.step maxHeapSize o = some (q', r) ∧ Contains q' ((past ++ [o]).foldl fifo []) ∧
        AnswersFifo past o r) ∨
      (q.step maxHeapSize o = none ∧ OutOfMemory maxHeapSize q o) := by
  rw [List.foldl_append]
  cases o with
  | push v =>
    rcases push_spec bounded contains v with ⟨q', pushed, contains'⟩ | ⟨stuck, needs⟩
    · exact .inl ⟨q', none, by rw [step, pushed]; rfl, contains', rfl⟩
    · exact .inr ⟨by rw [step, stuck]; rfl, ⟨v, rfl⟩, needs⟩
  | pop =>
    obtain ⟨value, contains'⟩ := pop_spec contains
    refine .inl ⟨_, _, rfl, contains', ?_⟩
    rw [AnswersFifo, value]

/-- Every run of `Push` and `Pop` is answered as by the mathematical queue, to its end or up to a `Push`
    whose array does not fit into the heap. -/
theorem taggedQueue_fifo_of_run (maxHeapSize : Nat) (bounded : maxHeapSize ≤ maxHeapSizeLimit)
    (ops : List (Op α)) :
    (∃ q rs, trace (step maxHeapSize) emptyTaggedQueue ops = some (q, rs) ∧
        Reads q (ops.foldl fifo []) ∧ Answers AnswersFifo [] ops rs) ∨
      ∃ done o rest q rs, ops = done ++ o :: rest ∧
        trace (step maxHeapSize) emptyTaggedQueue done = some (q, rs) ∧
        Reads q (done.foldl fifo []) ∧ Answers AnswersFifo [] done rs ∧
        q.step maxHeapSize o = none ∧ OutOfMemory maxHeapSize q o := by
  have rule := trace_or_stuck (P := fun _ : Op α => True)
    (R := fun past q => Contains q (past.foldl fifo [])) (fun past q o contains _ =>
      step_spec bounded past o contains)
  rcases rule ops [] emptyTaggedQueue contains_empty (fun _ _ => trivial) with
    ⟨q, rs, run, contains, answers⟩ | ⟨done, o, rest, q, rs, split, run, contains, answers, stuck⟩
  · exact .inl ⟨q, rs, run, reads_of_contains contains, answers⟩
  · exact .inr ⟨done, o, rest, q, rs, split, run, reads_of_contains contains, answers, stuck⟩

/-- The ring wraps around and grows. -/
theorem taggedQueue_fifo_of_run_grown :
    (trace (step maxHeapSizeLimit) (emptyTaggedQueue : TaggedQueue Unit)
        [.push (.int 1), .push (.int 2), .pop, .push (.int 3), .push (.int 4), .pop, .pop]).map (·.2) =
      some [none, none, some (.int 1), none, none, some (.int 2), some (.int 3)] ∧
    ((∃ q rs, trace (step maxHeapSizeLimit) (emptyTaggedQueue : TaggedQueue Unit)
          [.push (.int 1), .push (.int 2), .pop] = some (q, rs) ∧ Reads q [.int 2] ∧
          Answers AnswersFifo [] [.push (.int 1), .push (.int 2), .pop] rs) ∨
      ∃ done o rest q rs, [.push (.int 1), .push (.int 2), .pop] = done ++ o :: rest ∧
        trace (step maxHeapSizeLimit) (emptyTaggedQueue : TaggedQueue Unit) done = some (q, rs) ∧
        Reads q (done.foldl fifo []) ∧ Answers AnswersFifo [] done rs ∧
        q.step maxHeapSizeLimit o = none ∧ OutOfMemory maxHeapSizeLimit q o) :=
  ⟨by decide +kernel, taggedQueue_fifo_of_run maxHeapSizeLimit (Nat.le_refl _) _⟩

end TaggedQueue

end ArkRuntime
