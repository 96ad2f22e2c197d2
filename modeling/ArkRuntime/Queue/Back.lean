import ArkRuntime.Queue.TaggedQueue

/-!
# `TaggedQueue::Back`

`Back` reads the slot before the end. When the end has wrapped around to the slot 0, the index before it
is `0xFFFFFFFF`, which `QueueToArrayIndex` turns into 2: the word of the array that holds the end itself.
-/

namespace ArkRuntime

namespace TaggedQueue

variable {α : Type} {q : TaggedQueue α} {l : List (JSTaggedValue α)}

/-- The third word of the array is the end of the ring. -/
def EndWord (q : TaggedQueue α) : Prop := q.toTaggedArray.get 2 = .int q.getEnd.toNat

theorem endWord_setEnd (c : UInt32) : (q.setEnd c).EndWord := by
  have last : (q.setEnd c).getEnd = c := congrArg (·.last) (view_setEnd (q := q) c)
  rw [EndWord, last]
  rfl

/-- Each branch of `Push` that changes the queue ends with a write to the end. -/
theorem push_cases {maxHeapSize : Nat} {v : JSTaggedValue α} {q' : TaggedQueue α}
    (pushed : q.push maxHeapSize v = some q') : q' = q ∨ ∃ p c, q' = setEnd p c := by
  unfold push at pushed
  dsimp only at pushed
  split_ifs at pushed
  · obtain ⟨made, -, same⟩ := Option.bind_eq_some_iff.mp pushed
    exact .inr ⟨_, _, (Option.some.inj same).symm⟩
  · exact .inl (Option.some.inj pushed).symm
  · obtain ⟨made, -, same⟩ := Option.bind_eq_some_iff.mp pushed
    exact .inr ⟨_, _, (Option.some.inj same).symm⟩
  · obtain ⟨made, -, same⟩ := Option.bind_eq_some_iff.mp pushed
    exact .inr ⟨_, _, (Option.some.inj same).symm⟩
  · exact .inr ⟨_, _, (Option.some.inj pushed).symm⟩

theorem endWord_push {maxHeapSize : Nat} {v : JSTaggedValue α} {q' : TaggedQueue α} (word : q.EndWord)
    (pushed : q.push maxHeapSize v = some q') : q'.EndWord := by
  rcases push_cases pushed with same | ⟨p, c, written⟩
  · rw [same]
    exact word
  · rw [written]
    exact endWord_setEnd c

/-- `Pop` writes to a slot of the ring and to the start. -/
theorem endWord_pop (contains : Contains q l) (word : q.EndWord) : q.pop.2.EndWord := by
  rw [pop]
  split_ifs with empty
  · exact word
  · rcases contains with ⟨-, start, last, -⟩ | ring
    · exact absurd (decide_eq_true (start.trans last.symm)) empty
    · have small := ring.index_lt (i := q.getStart) ring.inside
      change EndWord ((q.set q.getStart .hole).setStart
        ((q.getStart + 1) % (q.set q.getStart .hole).getCapacity))
      generalize (q.getStart + 1) % (q.set q.getStart .hole).getCapacity = next
      have written : (q.set q.getStart .hole).getEnd = q.getEnd :=
        congrArg (·.last) (view_set (q := q) small .hole)
      have last : ((q.set q.getStart .hole).setStart next).getEnd = q.getEnd :=
        (congrArg (·.last) (view_setStart (q := q.set q.getStart .hole) next)).trans written
      have slot : ¬ (2 : Int) = (queueToArrayIndex q.getStart).toNat := by
        rw [toNat_queueToArrayIndex small]
        omega
      have first : ¬ (2 : Int) = (1 : UInt32).toNat := by decide
      rw [EndWord, last]
      simp only [setStart, set, setArray, TaggedArray.get_set, if_neg slot, if_neg first]
      exact word

/-- Before a slot other than the first stands the last element. -/
theorem Ring.back_eq (ring : Ring q.view l) {v : JSTaggedValue α} (last : l.getLast? = some v)
    (inner : q.getEnd ≠ 0) : q.get (q.getEnd - 1) = v := by
  have some : l ≠ [] := by
    rintro rfl
    cases last
  have length := List.length_pos_iff.mpr some
  have positive : 0 < q.getEnd.toNat := by
    rw [Nat.pos_iff_ne_zero]
    exact fun zero => inner (UInt32.toNat_inj.mp zero)
  have before : (q.getEnd - 1).toNat = q.getEnd.toNat - 1 := by
    have below := UInt32.toNat_lt q.getEnd
    rw [UInt32.toNat_sub, show (1 : UInt32).toNat = 1 from rfl]
    omega
  have below : q.getEnd.toNat < q.getCapacity.toNat := ring.last_lt
  have here : q.getEnd.toNat = (q.view.start.toNat + l.length) % q.view.capacity.toNat := ring.last
  have place : q.getEnd.toNat - 1 = (q.view.start.toNat + (l.length - 1)) % q.view.capacity.toNat := by
    have step : q.getEnd.toNat =
        ((q.view.start.toNat + (l.length - 1)) % q.view.capacity.toNat + 1) % q.view.capacity.toNat := by
      rw [Nat.mod_add_mod, here]
      congr 1
      omega
    have less := Nat.mod_lt (q.view.start.toNat + (l.length - 1))
      (show 0 < q.view.capacity.toNat from Nat.lt_of_le_of_lt (Nat.zero_le _) below)
    rcases Nat.lt_or_eq_of_le (Nat.succ_le_of_lt less) with inside | whole
    · rw [Nat.mod_eq_of_lt inside] at step
      omega
    · rw [show _ + 1 = q.view.capacity.toNat from whole, Nat.mod_self] at step
      omega
  rw [get_eq (ring.index_lt (by omega)), before, place]
  have content : (ringContent q.view.slot q.view.capacity.toNat q.view.start.toNat l.length)[l.length - 1]? = _ :=
    getElem?_ringContent (by omega)
  rw [ring.content, ← List.getLast?_eq_getElem?, last] at content
  exact (Option.some.inj content).symm

/-- With the end at the slot 0, `Back` is the end. -/
theorem back_eq_iff (contains : Contains q l) (word : q.EndWord) {v : JSTaggedValue α}
    (last : l.getLast? = some v) : q.back = v ↔ q.getEnd ≠ 0 ∨ v = .int 0 := by
  rcases contains with ⟨-, -, -, rfl⟩ | ring
  · cases last
  have filled : ¬ q.empty = true := by
    rw [ring.empty_iff]
    rintro rfl
    cases last
  rw [back, if_neg filled]
  by_cases inner : q.getEnd = 0
  · have header : q.get (q.getEnd - 1) = .int 0 := by
      rw [EndWord, inner] at word
      rw [inner]
      exact word
    rw [header, inner]
    simp [eq_comm]
  · simp [ring.back_eq last inner, inner]

/-- In every state that is reached from the empty queue and has elements, `Back` is the last of them
    exactly if the end of the ring is not at the slot 0, or the last element is the integer 0. -/
theorem taggedQueue_back_eq_iff_of_run (maxHeapSize : Nat) (bounded : maxHeapSize ≤ maxHeapSizeLimit)
    (ops : List (Op α)) (q : TaggedQueue α) (rs : List (Option (JSTaggedValue α)))
    (run : trace (step maxHeapSize) emptyTaggedQueue ops = some (q, rs)) (v : JSTaggedValue α)
    (last : (ops.foldl fifo []).getLast? = some v) :
    q.back = v ↔ q.getEnd ≠ 0 ∨ v = .int 0 := by
  have reached := trace_reaches (R := fun past q => Contains q (past.foldl fifo []) ∧ q.EndWord)
    (fun past q o q' r reached next => ?_) ops [] emptyTaggedQueue q rs
    ⟨contains_empty, rfl⟩ run
  · exact back_eq_iff reached.1 reached.2 last
  · obtain ⟨contains, word⟩ := reached
    rcases step_spec bounded past o contains with ⟨q1, r1, next1, contains1, -⟩ | ⟨stuck, -⟩
    · cases next.symm.trans next1
      refine ⟨contains1, ?_⟩
      cases o with
      | push v =>
        obtain ⟨pushed, hp, same⟩ := Option.map_eq_some_iff.mp next
        cases same
        exact endWord_push word hp
      | pop =>
        cases next
        exact endWord_pop contains word
    · exact absurd next (by simp [stuck])

/-- The ring of two slots after a `Push`, a `Pop` and a `Push`: the end is back at the slot 0. -/
theorem taggedQueue_back_wrapped :
    ¬ ∀ (ops : List (Op Unit)) (q : TaggedQueue Unit) (rs : List (Option (JSTaggedValue Unit))),
      trace (step maxHeapSizeLimit) emptyTaggedQueue ops = some (q, rs) →
        ∀ v, (ops.foldl fifo []).getLast? = some v → q.back = v := by
  intro always
  have value := always [.push (.int 1), .pop, .push (.int 7)] _ _ rfl (.int 7) rfl
  revert value
  decide +kernel

/-- Of four elements one has left the queue, which grows for the last one. -/
theorem taggedQueue_back_first :
    ∃ q, trace (step maxHeapSizeLimit) (emptyTaggedQueue : TaggedQueue Unit)
        [.push (.int 5), .push (.int 6), .pop, .push (.int 7), .push (.int 8)] =
          some (q, [none, none, some (.int 5), none, none]) ∧
      q.back = .int 8 ∧ (q.back = .int 8 ↔ q.getEnd ≠ 0 ∨ JSTaggedValue.int (α := Unit) 8 = .int 0) :=
  ⟨_, rfl, by decide +kernel, taggedQueue_back_eq_iff_of_run maxHeapSizeLimit (Nat.le_refl _)
    [.push (.int 5), .push (.int 6), .pop, .push (.int 7), .push (.int 8)] _ _ rfl _ rfl⟩

end TaggedQueue

end ArkRuntime
