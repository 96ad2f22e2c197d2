import ArkRuntime.TaggedList.Grow
import ArkRuntime.Misc.Run

/-!
# A double list is a sequence

The operations of `TaggedDoubleList` against a list of values. `Refines` is what can be observed: both
ways round the ring, the length, the tail slot and the reads by index and by value. It holds after
every run of operations within the index ranges that `JSAPILinkedList` checks, and growth in between
does not change the sequence.
-/

namespace ArkRuntime

open TaggedList

variable {α : Type}

inductive DoubleListOp (α : Type) where
  | add (value : JSTaggedValue α)
  | addFirst (value : JSTaggedValue α)
  | insert (value : JSTaggedValue α) (index : Int)
  | set (index : Int) (value : JSTaggedValue α)
  | removeFirst
  | removeLast
  | removeByIndex (index : Int)
  | remove (element : JSTaggedValue α)
  | removeFirstFound (element : JSTaggedValue α)
  | removeLastFound (element : JSTaggedValue α)
  | clear
  deriving DecidableEq

namespace DoubleListOp

/-- The list after the operation; an exception leaves it as it is. -/
def step (sv : SameValue α) (l : TaggedDoubleList α) : DoubleListOp α → Option (TaggedDoubleList α)
  | .add value => TaggedDoubleList.add l value
  | .addFirst value => TaggedDoubleList.addFirst l value
  | .insert value index => TaggedDoubleList.insert l value index
  | .set index value => (TaggedDoubleList.set l index value).map fun
      | .ok l' => l'
      | .error _ => l
  | .removeFirst => some (TaggedDoubleList.removeFirst l).2
  | .removeLast => some (TaggedDoubleList.removeLast l).2
  | .removeByIndex index => (TaggedDoubleList.removeByIndex l index).map Prod.snd
  | .remove element => (TaggedDoubleList.remove sv l element).map Prod.snd
  | .removeFirstFound element => (TaggedDoubleList.removeFirstFound sv l element).map fun
      | .ok l' => l'
      | .error _ => l
  | .removeLastFound element => (TaggedDoubleList.removeLastFound sv l element).map fun
      | .ok l' => l'
      | .error _ => l
  | .clear => some (TaggedDoubleList.clear l)

/-- The ranges `JSAPILinkedList` checks. The Hole marks the sentinel; no value of the language is
    one. -/
def InRange (l : TaggedDoubleList α) : DoubleListOp α → Prop
  | .insert _ index => 0 ≤ index ∧ index ≤ l.numberOfNodes
  | .removeByIndex index => 0 ≤ index ∧ index < l.numberOfNodes
  | .remove element => element ≠ .hole
  | .removeFirstFound element => element ≠ .hole
  | .removeLastFound element => element ≠ .hole
  | _ => True

instance [DecidableEq α] (l : TaggedDoubleList α) (op : DoubleListOp α) : Decidable (op.InRange l) :=
  match op with
  | .insert _ _ => inferInstanceAs (Decidable (_ ∧ _))
  | .removeByIndex _ => inferInstanceAs (Decidable (_ ∧ _))
  | .remove _ => inferInstanceAs (Decidable (_ ≠ _))
  | .removeFirstFound _ => inferInstanceAs (Decidable (_ ≠ _))
  | .removeLastFound _ => inferInstanceAs (Decidable (_ ≠ _))
  | .add _ => isTrue trivial
  | .addFirst _ => isTrue trivial
  | .set _ _ => isTrue trivial
  | .removeFirst => isTrue trivial
  | .removeLast => isTrue trivial
  | .clear => isTrue trivial

/-- What the operation does to a sequence. -/
def onSequence (sv : SameValue α) (vs : List (JSTaggedValue α)) :
    DoubleListOp α → List (JSTaggedValue α)
  | .add value => vs ++ [value]
  | .addFirst value => value :: vs
  | .insert value index => vs.insertIdx index.toNat value
  | .set index value => if 0 ≤ index then vs.set index.toNat value else vs
  | .removeFirst => vs.tail
  | .removeLast => vs.dropLast
  | .removeByIndex index => vs.eraseIdx index.toNat
  | .remove element => vs.eraseP fun v => sv.same v element
  | .removeFirstFound element => vs.eraseP fun v => sv.same v element
  | .removeLastFound element => (vs.reverse.eraseP fun v => sv.same v element).reverse
  | .clear => []

end DoubleListOp

/-! ## The steps -/

namespace TaggedDoubleList

variable {l : TaggedDoubleList α} {es : List Nat}

/-- `AddNode` inserts the value at index `i`, also when the list has grown. -/
theorem addNode_spec (enc : Encodes l es) {i : Nat} (le : i ≤ es.length) (value : JSTaggedValue α)
    {index : Int} (place : index = -1 ∧ i = es.length ∨ index = i) :
    ∃ l' es', addNode l value index (dataIndex .double (ringNode 0 es i)) = some l' ∧
      Encodes l' es' ∧ l'.values es' = (l.values es).insertIdx i value := by
  have nodes := enc.nodes
  have deleted := enc.deleted
  unfold addNode
  cases grow : l.mustGrow with
  | false =>
    have stay : l.growCapacity = none := by simp [growCapacity, grow]
    have free : l.hdr.nodes + l.hdr.deleted + 1 = (l.hdr.nodes + l.hdr.deleted + 1).toNat := by omega
    obtain ⟨enc', values, -⟩ :=
      link_encodes enc le free (fits_of_not_mustGrow enc grow) value place
    rw [stay]
    exact ⟨_, _, rfl, enc', values⟩
  | true =>
    obtain ⟨list, es', grown, encL, same, none, fits, -⟩ := growCapacity_grown enc grow
    have count : es'.length = es.length := by
      have := congrArg List.length same
      simpa using this
    have free : list.hdr.nodes + list.hdr.deleted + 1 = ((es.length + 1 : Nat) : Int) := by
      rw [encL.nodes, none, count]
      omega
    obtain ⟨enc', values, -⟩ :=
      link_encodes encL (count ▸ le) free fits value (count ▸ place)
    have prev : (if index = -1 then some list.tailTable
        else if index = 0 then list.findPrevNodeByIndex 0
        else getPrevNode list index) = some (dataIndex .double (ringNode 0 es' i)) := by
      rcases place with ⟨rfl, rfl⟩ | rfl
      · rw [if_pos rfl, tailTable_eq, encL.tail, ← ringNode_length, count]
      · rw [if_neg (by omega)]
        split_ifs with zero
        · have first : i = 0 := by omega
          subst first
          exact findPrevNodeByIndex_eq encL (Nat.zero_le _)
        · exact getPrevNode_eq encL (count ▸ le)
    rw [grown]
    simp only [prev, Option.bind_eq_bind, Option.bind_some]
    exact ⟨_, _, rfl, enc', by rw [values, same]⟩

theorem dataIndex_ne_neg (e : Nat) : dataIndex .double e ≠ -1 := by
  have := dataIndex_nonneg (d := .double) e
  omega

/-- Erasing the first match, by its index. -/
theorem eraseP_eq {β : Type} (p : β → Bool) (vs : List β) : vs.eraseP p = vs.eraseIdx (vs.findIdx p) := by
  induction vs with
  | nil => rfl
  | cons v vs ih =>
    rw [List.findIdx_cons]
    cases h : p v with
    | false => simp [h, ih]
    | true => simp [h]

theorem reverse_eraseIdx {β : Type} (vs : List β) {m : Nat} (below : m < vs.length) :
    (vs.reverse.eraseIdx m).reverse = vs.eraseIdx (vs.length - (m + 1)) := by
  rw [List.eraseIdx_eq_take_drop_succ, List.eraseIdx_eq_take_drop_succ, List.reverse_append,
    List.drop_reverse, List.take_reverse, List.reverse_reverse, List.reverse_reverse]
  congr 2
  omega

section Steps

variable (sv : SameValue α)

/-- The node found by value is taken out; if none is found, the list stays. -/
theorem removeFound_spec (enc : Encodes l es) (element : JSTaggedValue α) :
    let found := firstSame sv element (l.values es)
    ∃ es', Encodes (if found < es.length then l.removeNode (dataIndex .double (ringNode 0 es found))
        else l) es' ∧
      (if found < es.length then l.removeNode (dataIndex .double (ringNode 0 es found)) else l).values
        es' = (l.values es).eraseP fun v => sv.same v element := by
  intro found
  rw [eraseP_eq]
  split_ifs with inside
  · exact ⟨_, remove_encodes enc inside⟩
  · refine ⟨es, enc, (List.eraseIdx_of_length_le ?_).symm⟩
    rw [length_values]
    exact Nat.le_of_not_lt inside

theorem step_remove (enc : Encodes l es) (element : JSTaggedValue α) (notHole : element ≠ .hole) :
    ∃ l' es', DoubleListOp.step sv l (.remove element) = some l' ∧
      DoubleListOp.step sv l (.removeFirstFound element) = some l' ∧ Encodes l' es' ∧
      l'.values es' = (l.values es).eraseP fun v => sv.same v element := by
  obtain ⟨es', enc', values⟩ := removeFound_spec sv enc element
  have find := findPrevNodeByValue_eq sv element enc notHole
  refine ⟨_, es', ?_, ?_, enc', values⟩
  · rw [DoubleListOp.step, remove, find]
    split_ifs with found
    · simp [dataIndex_ne_neg]
    · simp
  · rw [DoubleListOp.step, removeFirstFound, find]
    split_ifs with found
    · simp [dataIndex_ne_neg]
    · simp

theorem step_removeLastFound (enc : Encodes l es) (element : JSTaggedValue α)
    (notHole : element ≠ .hole) :
    ∃ l' es', DoubleListOp.step sv l (.removeLastFound element) = some l' ∧ Encodes l' es' ∧
      l'.values es' = ((l.values es).reverse.eraseP fun v => sv.same v element).reverse := by
  have find := findPrevNodeByValueAtLast_eq enc sv element notHole
  have size : (l.values es).length = es.length := length_values l es
  rw [eraseP_eq, DoubleListOp.step, removeLastFound, find]
  by_cases found : firstSame sv element (l.values es).reverse < es.length
  · rw [if_pos found]
    obtain ⟨enc', values⟩ := remove_encodes enc
      (i := es.length - (firstSame sv element (l.values es).reverse + 1)) (by omega)
    refine ⟨_, _, by simp [dataIndex_ne_neg], enc', ?_⟩
    rw [values, ← size]
    exact (reverse_eraseIdx _ (size ▸ found)).symm
  · rw [if_neg found]
    refine ⟨l, es, rfl, enc, ?_⟩
    rw [List.eraseIdx_of_length_le, List.reverse_reverse]
    rw [List.length_reverse, size]
    exact Nat.le_of_not_lt found

theorem step_set (enc : Encodes l es) (index : Int) (value : JSTaggedValue α) :
    ∃ l' es', DoubleListOp.step sv l (.set index value) = some l' ∧ Encodes l' es' ∧
      l'.values es' = DoubleListOp.onSequence sv (l.values es) (.set index value) := by
  have nodes : l.numberOfNodes = es.length := enc.nodes
  rw [DoubleListOp.step, TaggedDoubleList.set, DoubleListOp.onSequence]
  simp only [nodes]
  by_cases outside : index < 0 ∨ (es.length : Int) ≤ index
  · refine ⟨l, es, by rw [if_pos outside]; rfl, enc, ?_⟩
    split_ifs with nonneg
    · rw [List.set_eq_of_length_le]
      rw [length_values]
      omega
    · rfl
  · obtain ⟨i, rfl⟩ : ∃ i : Nat, index = i := ⟨index.toNat, by omega⟩
    have below : i < es.length := by omega
    obtain ⟨enc', values⟩ := setData_spec enc below value
    refine ⟨_, es, ?_, enc', ?_⟩
    · rw [if_neg outside, findDataIndexByNodeIndex_eq enc below]
      simp only [Option.bind_eq_bind, Option.bind_some, dataIndex_ne_neg, if_false, Option.map_some]
    · rw [if_pos (by omega), values]
      rfl

theorem step_removeEnds (enc : Encodes l es) :
    (∃ l' es', DoubleListOp.step sv l .removeFirst = some l' ∧ Encodes l' es' ∧
      l'.values es' = (l.values es).tail) ∧
    (∃ l' es', DoubleListOp.step sv l .removeLast = some l' ∧ Encodes l' es' ∧
      l'.values es' = (l.values es).dropLast) := by
  rw [DoubleListOp.step, DoubleListOp.step, removeFirst, removeLast]
  by_cases empty : es = []
  · subst empty
    simp only [removeNode_empty enc]
    exact ⟨⟨l, [], rfl, enc, rfl⟩, ⟨l, [], rfl, enc, rfl⟩⟩
  · have pos : 0 < es.length := List.length_pos_iff.mpr empty
    obtain ⟨encF, valuesF⟩ := remove_encodes enc pos
    obtain ⟨encL, valuesL⟩ := remove_encodes enc (i := es.length - 1) (by omega)
    refine ⟨⟨_, es.eraseIdx 0, rfl, ?_, ?_⟩, ⟨_, es.eraseIdx (es.length - 1), rfl, ?_, ?_⟩⟩
    · rw [start_eq_node .double es]
      exact encF
    · rw [start_eq_node .double es, valuesF, List.eraseIdx_zero]
    · have back := enc.prevOf_back (k := 0) pos
      rw [Nat.sub_zero] at back
      simp only [enc.prevOf_start, back]
      exact encL
    · have back := enc.prevOf_back (k := 0) pos
      rw [Nat.sub_zero] at back
      simp only [enc.prevOf_start, back]
      rw [valuesL, List.eraseIdx_eq_dropLast (by rw [length_values]; omega)]

theorem step_add (enc : Encodes l es) (value : JSTaggedValue α) {i : Nat} (le : i ≤ es.length) :
    ∃ l' es', DoubleListOp.step sv l (.insert value i) = some l' ∧ Encodes l' es' ∧
      l'.values es' = (l.values es).insertIdx i value := by
  obtain ⟨l', es', run, enc', values⟩ := addNode_spec enc le value (.inr rfl)
  refine ⟨l', es', ?_, enc', values⟩
  rw [DoubleListOp.step, TaggedDoubleList.insert, getPrevNode_eq enc le]
  exact run

/-- Each operation does to the list what it does to the sequence. -/
theorem step_sequence (enc : Encodes l es) (op : DoubleListOp α) (ok : op.InRange l) :
    ∃ l' es', op.step sv l = some l' ∧ Encodes l' es' ∧
      l'.values es' = op.onSequence sv (l.values es) := by
  have size : (l.values es).length = es.length := length_values l es
  have nodes : l.numberOfNodes = es.length := enc.nodes
  cases op with
  | add value =>
    obtain ⟨l', es', run, enc', values⟩ :=
      addNode_spec enc (Nat.le_refl _) value (.inl ⟨rfl, rfl⟩)
    refine ⟨l', es', ?_, enc', ?_⟩
    · rw [DoubleListOp.step, TaggedDoubleList.add, tailTable_eq, enc.tail, ← ringNode_length]
      exact run
    · rw [values, ← size, List.insertIdx_length_self]
      rfl
  | addFirst value =>
    obtain ⟨l', es', run, enc', values⟩ := addNode_spec enc (Nat.zero_le _) value (.inr rfl)
    refine ⟨l', es', ?_, enc', by rw [values]; rfl⟩
    rw [DoubleListOp.step, TaggedDoubleList.addFirst]
    have prev := findPrevNodeByIndex_eq enc (Nat.zero_le _)
    rw [Int.natCast_zero] at prev
    rw [prev]
    exact run
  | insert value index =>
    obtain ⟨nonneg, le⟩ := ok
    obtain ⟨i, rfl⟩ : ∃ i : Nat, index = i := ⟨index.toNat, by omega⟩
    exact step_add sv enc value (by omega)
  | set index value => exact step_set sv enc index value
  | removeFirst => exact (step_removeEnds sv enc).1
  | removeLast => exact (step_removeEnds sv enc).2
  | removeByIndex index =>
    obtain ⟨nonneg, below⟩ := ok
    obtain ⟨i, rfl⟩ : ∃ i : Nat, index = i := ⟨index.toNat, by omega⟩
    have inside : i < es.length := by omega
    obtain ⟨enc', values⟩ := remove_encodes enc inside
    refine ⟨_, _, ?_, enc', values⟩
    rw [DoubleListOp.step, removeByIndex, getPrevNode_eq enc (Nat.le_of_lt inside)]
    rfl
  | remove element =>
    obtain ⟨l', es', run, -, enc', values⟩ := step_remove sv enc element ok
    exact ⟨l', es', run, enc', values⟩
  | removeFirstFound element =>
    obtain ⟨l', es', -, run, enc', values⟩ := step_remove sv enc element ok
    exact ⟨l', es', run, enc', values⟩
  | removeLastFound element => exact step_removeLastFound sv enc element ok
  | clear => exact ⟨_, [], rfl, doubleClear_encodes enc, rfl⟩

end Steps

end TaggedDoubleList

/-! ## What can be observed -/

/-- The data indices met by following `link` from the sentinel until it is back. -/
def follow (l : TaggedDoubleList α) (link : Int → Int) : Option (List Int) :=
  iter (fun (index, seen) =>
    if index = elementsStartIndex then .inr seen else .inl (link index, seen ++ [index]))
    l.fuel (link elementsStartIndex, [])

/-- The list `l` stands for the sequence `vs`. -/
structure Refines (sv : SameValue α) (l : TaggedDoubleList α) (vs : List (JSTaggedValue α)) : Prop where
  links : ∃ nodes, follow l l.nextOf = some nodes ∧ follow l l.prevOf = some nodes.reverse ∧
    nodes.map l.getElement = vs ∧ l.tailTable = nodes.getLastD elementsStartIndex
  numberOfNodes : l.numberOfNodes = vs.length
  get : ∀ index, TaggedDoubleList.get l index =
    some (if 0 ≤ index then vs.getD index.toNat .undefined else .undefined)
  getIndexOf : ∀ element, TaggedDoubleList.getIndexOf sv l element =
    some (if firstSame sv element vs < vs.length then (firstSame sv element vs : Int) else -1)
  getLastIndexOf : ∀ element, TaggedDoubleList.getLastIndexOf sv l element =
    some (lastSame sv element vs)

section Observe

variable {l : TaggedDoubleList α} {es : List Nat}

theorem follow_next (enc : Encodes l es) :
    follow l l.nextOf = some (es.map (dataIndex .double)) := by
  have enough := enc.lt_fuel
  unfold follow
  rw [enc.nextOf_start]
  apply iter_walk (s := fun k => (dataIndex .double (ringNode 0 es (k + 1)),
    (es.take k).map (dataIndex .double))) (m := es.length)
  · intro k hk
    simp only [enc.ne_start hk, if_false, enc.nextOf (i := k + 1) (by omega)]
    rw [List.take_succ_eq_append_getElem hk, ringNode_succ hk, List.map_append]
    rfl
  · simp only [end_eq_start, if_true, List.take_length]
  · omega

theorem follow_prev (enc : Encodes l es) :
    follow l l.prevOf = some (es.map (dataIndex .double)).reverse := by
  have enough := enc.lt_fuel
  unfold follow
  rw [enc.prevOf_start]
  apply iter_walk (s := fun k => (dataIndex .double (ringNode 0 es (es.length - k)),
    (es.reverse.take k).map (dataIndex .double))) (m := es.length)
  · intro k hk
    have hk' : k < es.reverse.length := by rwa [List.length_reverse]
    have node : ringNode 0 es (es.length - k) = es.reverse[k] := by
      rw [List.getElem_reverse, show es.length - k = es.length - 1 - k + 1 by omega,
        ringNode_succ (by omega)]
    simp only [enc.ne_start_back hk, if_false, enc.prevOf_back hk]
    rw [List.take_succ_eq_append_getElem hk', node, List.map_append]
    rfl
  · have all : es.reverse.take es.length = es.reverse := List.take_of_length_le (by simp)
    simp only [Nat.sub_self, ringNode_zero, dataIndex_zero, if_true, all, List.map_reverse]
  · omega

theorem refines_of_encodes (sv : SameValue α) (enc : Encodes l es) : Refines sv l (l.values es) := by
  have size := length_values l es
  refine ⟨⟨es.map (dataIndex .double), follow_next enc, follow_prev enc, ?_, ?_⟩, ?_, ?_, ?_, ?_⟩
  · rw [List.map_map]
    rfl
  · rw [tailTable_eq, enc.tail]
    cases es using List.reverseRecOn with
    | nil => exact dataIndex_zero
    | append_singleton es e => simp
  · rw [size]
    exact enc.nodes
  · exact doubleGet_eq enc
  · intro element
    rw [size]
    exact findIndexByElement_eq sv element enc
  · exact fun element => findLastIndexByElement_eq sv element enc

end Observe

/-- After every run of operations within the ranges the double list is the sequence that the
    operations make, and growing it changes nothing. -/
theorem doubleList_refines_of_run (sv : SameValue α) (numberOfElements : Nat)
    (ops : List (DoubleListOp α))
    (inRange : Allowed (DoubleListOp.step sv) (fun l op => op.InRange l)
      (TaggedDoubleList.create numberOfElements) ops) :
    ∃ l, run (DoubleListOp.step sv) (TaggedDoubleList.create numberOfElements) ops = some l ∧
      Refines sv l (ops.foldl (DoubleListOp.onSequence sv) []) ∧
      ∀ grown, l.growCapacity = some grown →
        Refines sv grown (ops.foldl (DoubleListOp.onSequence sv) []) := by
  obtain ⟨l, reached, es, enc, values⟩ := run_refines
    (R := fun (l : TaggedDoubleList α) vs => ∃ es, Encodes l es ∧ l.values es = vs)
    (f := DoubleListOp.onSequence sv)
    (fun l vs op rel ok => by
      obtain ⟨es, enc, rfl⟩ := rel
      obtain ⟨l', es', run, enc', values⟩ := TaggedDoubleList.step_sequence sv enc op ok
      exact ⟨l', run, es', enc', values⟩)
    ops _ [] ⟨[], doubleCreate_encodes numberOfElements, rfl⟩ inRange
  refine ⟨l, reached, values ▸ refines_of_encodes sv enc, fun grown growth => ?_⟩
  have grow : l.mustGrow = true := by
    cases h : l.mustGrow with
    | true => rfl
    | false => simp [growCapacity, h] at growth
  obtain ⟨list, es', run, enc', same, -⟩ := growCapacity_grown enc grow
  rw [run, Option.some.injEq] at growth
  subst growth
  rw [← values, ← same]
  exact refines_of_encodes sv enc'

/-- A list made with one place: it grows, and a deleted node is left out of the copy. -/
theorem doubleList_refines_of_run_grown :
    ∃ l, run (DoubleListOp.step (identical Unit)) (TaggedDoubleList.create 1)
        [.add (.int 1), .addFirst (.int 2), .insert (.int 3) 1, .removeLast, .add (.int 4)] = some l ∧
      Refines (identical Unit) l [.int 2, .int 3, .int 4] := by
  obtain ⟨l, reached, rel, -⟩ := doubleList_refines_of_run (identical Unit) 1
    [.add (.int 1), .addFirst (.int 2), .insert (.int 3) 1, .removeLast, .add (.int 4)]
    (by decide +kernel)
  exact ⟨l, reached, rel⟩

end ArkRuntime
