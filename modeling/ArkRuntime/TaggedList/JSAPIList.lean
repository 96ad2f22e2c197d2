import ArkRuntime.TaggedList.SingleList
import ArkRuntime.Misc.Run

/-!
# `JSAPIList` and `FastGet`

`ecmascript/js_api/js_api_list.cpp`: a single list with the flag `IsOrderedList`, which says that the
`i`-th node sits in the `i`-th place of the array, so that `FastGet` may read it there. A new node goes
behind the deleted ones; so the flag is wrong when a node is added at the end of a list that has
deleted nodes, and right in every run in which that does not happen.
-/

namespace ArkRuntime

open TaggedList

variable {α : Type}

structure JSAPIList (α : Type) where
  singleList : TaggedSingleList α
  isOrderedList : Bool

namespace JSAPIList

/-- `ContainersList::ListConstructor`. -/
def construct : JSAPIList α := ⟨TaggedSingleList.create defaultArrayLength, true⟩

def length (list : JSAPIList α) : Int := list.singleList.numberOfNodes

/-- `JSAPIList::Add`. -/
def add (list : JSAPIList α) (value : JSTaggedValue α) : Option (JSAPIList α) := do
  let newList ← TaggedSingleList.add list.singleList value
  some { list with singleList := newList }

/-- `JSAPIList::Insert`. -/
def insert (list : JSAPIList α) (value : JSTaggedValue α) (index : Int) :
    Option (Except BusinessError (JSAPIList α)) :=
  let nodeLength := list.length
  if index < 0 ∨ nodeLength < index then some (.error (BusinessError.outOfRange "index" nodeLength index))
  else do
    let newList ← TaggedSingleList.insert list.singleList value index
    some (.ok ⟨newList, if index ≠ nodeLength then false else list.isOrderedList⟩)

/-- `JSAPIList::Set`. -/
def set (list : JSAPIList α) (index : Int) (value : JSTaggedValue α) :
    Option (Except BusinessError (JSAPIList α)) :=
  let nodeLength := list.length
  if index < 0 ∨ nodeLength ≤ index then some (.error (BusinessError.outOfRange "index" (nodeLength - 1) index))
  else do
    let newList ← TaggedSingleList.set list.singleList index value
    some (.ok { list with singleList := newList })

/-- `JSAPIList::Get`. -/
def get (list : JSAPIList α) (index : Int) : Option (JSTaggedValue α) :=
  if index < 0 ∨ list.length ≤ index then some .undefined
  else TaggedSingleList.get list.singleList index

/-- `JSAPIList::FastGet`, with the list as it is left. -/
def fastGet (list : JSAPIList α) (index : Int) : JSTaggedValue α × JSAPIList α :=
  if index < 0 ∨ list.length ≤ index then (.undefined, list)
  else
    let dataIndex := elementsStartIndex + (index + 1) * ListDerived.single.entrySize
    if list.isOrderedList = false then
      let newList := TaggedSingleList.sortByNodeOrder list.singleList
      (newList.getElement dataIndex, ⟨newList, true⟩)
    else (list.singleList.getElement dataIndex, list)

/-- `JSAPIList::Clear`. -/
def clear (list : JSAPIList α) : JSAPIList α where
  singleList := if 0 < list.singleList.numberOfNodes then list.singleList.clear else list.singleList
  isOrderedList := true

/-- `JSAPIList::RemoveByIndex`, with the removed value. -/
def removeByIndex (list : JSAPIList α) (index : Int) :
    Option (Except BusinessError (JSTaggedValue α × JSAPIList α)) :=
  let nodeLength := list.length
  if index < 0 ∨ nodeLength ≤ index then
    let size := if 0 < nodeLength then nodeLength - 1 else 0
    some (.error (BusinessError.outOfRange "index" size index))
  else do
    let isOrderedList := if index ≠ nodeLength - 1 then false else list.isOrderedList
    let (data, newList) ← list.singleList.removeByIndex index
    some (.ok (data, ⟨newList, isOrderedList⟩))

/-- `JSAPIList::Remove`. -/
def remove (sv : SameValue α) (list : JSAPIList α) (element : JSTaggedValue α) :
    Option (Bool × JSAPIList α) := do
  let (found, newList) ← TaggedSingleList.remove sv list.singleList element
  some (found, ⟨newList, false⟩)

/-- `JSAPIList::Sort`. -/
def sort (sortCompare : JSTaggedValue α → JSTaggedValue α → Completion Bool) (list : JSAPIList α) :
    Option (JSAPIList α) := do
  let newList ← TaggedSingleList.sort sortCompare list.singleList
  some ⟨newList, false⟩

/-- `JSAPIList::GetSubList`: a new list. -/
def getSubList (list : JSAPIList α) (fromIndex toIndex : Int) :
    Option (Except BusinessError (JSAPIList α)) :=
  let nodeLength := list.length
  let size := if nodeLength > toIndex then toIndex else nodeLength
  if fromIndex < 0 ∨ size ≤ fromIndex then
    some (.error (BusinessError.outOfRange "fromIndex" (size - 1) fromIndex))
  else if toIndex < 0 ∨ toIndex ≤ fromIndex ∨ nodeLength < toIndex then
    some (.error (BusinessError.outOfRange "toIndex" nodeLength toIndex))
  else do
    let len := elementsStartIndex + (toIndex - fromIndex + 1) * ListDerived.single.entrySize
    let subSingleList ← TaggedSingleList.getSubList list.singleList fromIndex toIndex
      ⟨.newTaggedArray len⟩
    some (.ok ⟨subSingleList, true⟩)

end JSAPIList

inductive JSAPIListOp (α : Type) where
  | add (value : JSTaggedValue α)
  | insert (value : JSTaggedValue α) (index : Int)
  | set (index : Int) (value : JSTaggedValue α)
  | removeByIndex (index : Int)
  | remove (element : JSTaggedValue α)
  | sort (sortCompare : JSTaggedValue α → JSTaggedValue α → Completion Bool)
  | clear
  | getSubList (fromIndex toIndex : Int)
  | fastGet (index : Int)

namespace JSAPIListOp

/-- The list after the operation; an error leaves it as it is, and `getSubList` goes on with the new
    list. -/
def step (sv : SameValue α) (list : JSAPIList α) : JSAPIListOp α → Option (JSAPIList α)
  | .add value => list.add value
  | .insert value index => (list.insert value index).map fun
      | .ok list' => list'
      | .error _ => list
  | .set index value => (list.set index value).map fun
      | .ok list' => list'
      | .error _ => list
  | .removeByIndex index => (list.removeByIndex index).map fun
      | .ok (_, list') => list'
      | .error _ => list
  | .remove element => (list.remove sv element).map Prod.snd
  | .sort sortCompare => list.sort sortCompare
  | .clear => some list.clear
  | .getSubList fromIndex toIndex => (list.getSubList fromIndex toIndex).map fun
      | .ok list' => list'
      | .error _ => list
  | .fastGet index => some (list.fastGet index).2

/-- A node added now at the end does not come next to the last node, though the flag says so. -/
def Misplaces (list : JSAPIList α) : Prop :=
  list.isOrderedList = true ∧ list.singleList.numberOfDeletedNodes ≠ 0 ∧
    list.singleList.mustGrow = false

instance (list : JSAPIList α) : Decidable (Misplaces list) := inferInstanceAs (Decidable (_ ∧ _ ∧ _))

/-- The operation does not add at the end of an ordered list with deleted nodes that does not grow.
    No value of the language is the Hole. -/
def KeepsLayout (list : JSAPIList α) : JSAPIListOp α → Prop
  | .add _ => ¬ Misplaces list
  | .insert _ index => index = list.length → ¬ Misplaces list
  | .remove element => element ≠ .hole
  | _ => True

instance [DecidableEq α] (list : JSAPIList α) (op : JSAPIListOp α) : Decidable (op.KeepsLayout list) :=
  match op with
  | .add _ => inferInstanceAs (Decidable (¬ _))
  | .insert _ _ => inferInstanceAs (Decidable (_ → _))
  | .remove _ => inferInstanceAs (Decidable (_ ≠ _))
  | .set _ _ => isTrue trivial
  | .removeByIndex _ => isTrue trivial
  | .sort _ => isTrue trivial
  | .clear => isTrue trivial
  | .getSubList _ _ => isTrue trivial
  | .fastGet _ => isTrue trivial

end JSAPIListOp

/-! ## The layout -/

/-- The single list is a ring, and where the flag is set its nodes are `1, ..., n`. -/
def LaidOut (list : JSAPIList α) : Prop :=
  ∃ es, Encodes list.singleList es ∧ (list.isOrderedList = true → es = List.range' 1 es.length)

section Steps

variable {list : JSAPIList α}

theorem range_concat (n : Nat) : List.range' 1 n ++ [n + 1] = List.range' 1 (n + 1) := by
  rw [List.range'_concat, Nat.one_mul, Nat.add_comm 1 n]

/-- A node at the end, by `Add` or by `Insert` at the length. -/
theorem addNode_laidOut {l : TaggedSingleList α} {es : List Nat} {ordered : Bool}
    (enc : Encodes l es) (layout : ordered = true → es = List.range' 1 es.length)
    (ok : ¬ JSAPIListOp.Misplaces ⟨l, ordered⟩) (value : JSTaggedValue α) {index : Int}
    (place : index = -1 ∨ index = es.length) :
    ∃ l', TaggedSingleList.addNode l value index (dataIndex .single (ringNode 0 es es.length)) = some l' ∧
      LaidOut ⟨l', ordered⟩ := by
  obtain ⟨l', es', e, run, enc', -, stay, grown⟩ := TaggedSingleList.addNode_spec enc (Nat.le_refl _)
    value (place.imp_left fun h => ⟨h, rfl⟩)
  refine ⟨l', run, _, enc', fun flag => ?_⟩
  have sorted := layout flag
  cases grow : l.mustGrow with
  | false =>
    obtain ⟨rfl, last⟩ := stay grow
    have noDeleted : l.hdr.deleted = 0 := by
      by_contra some'
      exact ok ⟨flag, some', grow⟩
    have number : e = es'.length + 1 := by
      rw [enc.nodes, noDeleted] at last
      omega
    subst number
    rw [List.take_length, List.drop_length, List.length_append, List.length_singleton,
      ← range_concat, ← sorted]
  | true =>
    obtain ⟨rfl, order⟩ := grown grow
    have sorted' : es' = List.range' 1 es.length := by
      rcases order with rfl | h
      · exact sorted
      · exact h
    subst sorted'
    have take : (List.range' 1 es.length).take es.length = List.range' 1 es.length :=
      List.take_of_length_le (by simp)
    have drop : (List.range' 1 es.length).drop es.length = [] := List.drop_of_length_le (by simp)
    rw [take, drop, range_concat, List.length_range']

theorem add_laidOut (laid : LaidOut list) (ok : ¬ JSAPIListOp.Misplaces list) (value : JSTaggedValue α) :
    ∃ list', list.add value = some list' ∧ LaidOut list' := by
  obtain ⟨l, ordered⟩ := list
  obtain ⟨es, enc, layout⟩ := laid
  obtain ⟨l', run, laid'⟩ := addNode_laidOut enc layout ok value (.inl rfl)
  refine ⟨⟨l', ordered⟩, ?_, laid'⟩
  unfold JSAPIList.add TaggedSingleList.add
  simp only
  rw [tailTable_eq, enc.tail, ← ringNode_length, run]
  rfl

theorem insert_laidOut (sv : SameValue α) (laid : LaidOut list) (value : JSTaggedValue α) (index : Int)
    (ok : index = list.length → ¬ JSAPIListOp.Misplaces list) :
    ∃ list', JSAPIListOp.step sv list (.insert value index) = some list' ∧ LaidOut list' := by
  obtain ⟨es, enc, layout⟩ := laid
  have nodes : list.length = es.length := enc.nodes
  rw [JSAPIListOp.step, JSAPIList.insert]
  simp only [nodes] at ok ⊢
  by_cases outside : index < 0 ∨ (es.length : Int) < index
  · exact ⟨list, by rw [if_pos outside]; rfl, es, enc, layout⟩
  · obtain ⟨i, rfl⟩ : ∃ i : Nat, index = i := ⟨index.toNat, by omega⟩
    have le : i ≤ es.length := by omega
    have find : (if (i : Int) = -1 then some list.singleList.tailTable
        else list.singleList.findPrevNodeByIndex i) = some (dataIndex .single (ringNode 0 es i)) := by
      rw [if_neg (by omega)]
      exact findPrevNodeByIndex_eq enc le
    rw [if_neg outside, TaggedSingleList.insert]
    simp only [find, Option.bind_eq_bind, Option.bind_some]
    by_cases last : i = es.length
    · subst last
      obtain ⟨l', run, laid'⟩ := addNode_laidOut enc layout (ok rfl) value (.inr rfl)
      exact ⟨⟨l', list.isOrderedList⟩, by rw [run]; simp, laid'⟩
    · obtain ⟨l', es', e, run, enc', -⟩ := TaggedSingleList.addNode_spec enc le value (.inr rfl)
      have notLast : ¬ (i : Int) = es.length := by omega
      exact ⟨⟨l', false⟩, by rw [run]; simp [notLast], _, enc', by simp⟩

theorem set_laidOut (sv : SameValue α) (laid : LaidOut list) (index : Int) (value : JSTaggedValue α) :
    ∃ list', JSAPIListOp.step sv list (.set index value) = some list' ∧ LaidOut list' := by
  obtain ⟨es, enc, layout⟩ := laid
  have nodes : list.length = es.length := enc.nodes
  rw [JSAPIListOp.step, JSAPIList.set]
  simp only [nodes]
  by_cases outside : index < 0 ∨ (es.length : Int) ≤ index
  · exact ⟨list, by rw [if_pos outside]; rfl, es, enc, layout⟩
  · obtain ⟨i, rfl⟩ : ∃ i : Nat, index = i := ⟨index.toNat, by omega⟩
    have below : i < es.length := by omega
    have notNeg : ¬ dataIndex .single (ringNode 0 es (i + 1)) = -1 := by
      have := dataIndex_nonneg (d := .single) (ringNode 0 es (i + 1))
      omega
    rw [if_neg outside, TaggedSingleList.set, findDataIndexByNodeIndex_eq enc below]
    simp only [Option.bind_eq_bind, Option.bind_some, notNeg, if_false]
    exact ⟨_, rfl, es, (setData_spec enc below value).1, layout⟩

theorem removeByIndex_laidOut (sv : SameValue α) (laid : LaidOut list) (index : Int) :
    ∃ list', JSAPIListOp.step sv list (.removeByIndex index) = some list' ∧ LaidOut list' := by
  obtain ⟨es, enc, layout⟩ := laid
  have nodes : list.length = es.length := enc.nodes
  rw [JSAPIListOp.step, JSAPIList.removeByIndex]
  simp only [nodes]
  by_cases outside : index < 0 ∨ (es.length : Int) ≤ index
  · exact ⟨list, by rw [if_pos outside]; rfl, es, enc, layout⟩
  · obtain ⟨i, rfl⟩ : ∃ i : Nat, index = i := ⟨index.toNat, by omega⟩
    have below : i < es.length := by omega
    rw [if_neg outside, TaggedList.removeByIndex, findPrevNodeByIndex_eq enc (Nat.le_of_lt below)]
    simp only [Option.bind_eq_bind, Option.bind_some]
    refine ⟨_, rfl, es.eraseIdx i, (remove_encodes enc below).1, fun flag => ?_⟩
    -- the flag stays only when the last node goes
    have last : (i : Int) = es.length - 1 := by
      by_contra other
      simp [other] at flag
    have sorted : es = List.range' 1 es.length := layout (by simpa [last] using flag)
    obtain ⟨n, size⟩ : ∃ n, es.length = n + 1 := ⟨es.length - 1, by omega⟩
    have number : i = n := by omega
    subst number
    rw [List.eraseIdx_eq_dropLast size.symm, List.length_dropLast, size, Nat.add_sub_cancel]
    rw [size, ← range_concat] at sorted
    rw [sorted, List.dropLast_concat]

theorem remove_laidOut (sv : SameValue α) (laid : LaidOut list) (element : JSTaggedValue α)
    (notHole : element ≠ .hole) :
    ∃ list', JSAPIListOp.step sv list (.remove element) = some list' ∧ LaidOut list' := by
  obtain ⟨es, enc, -⟩ := laid
  rw [JSAPIListOp.step, JSAPIList.remove, TaggedSingleList.remove,
    findPrevNodeByValue_eq sv element enc notHole]
  split_ifs with found
  · have notNeg : ¬ dataIndex .single (ringNode 0 es (firstSame sv element
        (list.singleList.values es))) = -1 := by
      have := dataIndex_nonneg (d := .single)
        (ringNode 0 es (firstSame sv element (list.singleList.values es)))
      omega
    simp only [Option.bind_eq_bind, Option.bind_some, notNeg, if_false]
    exact ⟨_, rfl, _, (remove_encodes enc found).1, by simp⟩
  · exact ⟨_, rfl, es, enc, by simp⟩

theorem clear_laidOut (laid : LaidOut list) : LaidOut list.clear := by
  obtain ⟨es, enc, -⟩ := laid
  unfold JSAPIList.clear
  by_cases some' : 0 < list.singleList.numberOfNodes
  · simp only [some', if_true]
    exact ⟨[], singleClear_encodes enc, by simp⟩
  · simp only [some', if_false]
    have nodes : list.singleList.numberOfNodes = es.length := enc.nodes
    have empty : es = [] := List.length_eq_zero_iff.mp (by omega)
    subst empty
    exact ⟨[], enc, by simp⟩

theorem getSubList_laidOut (sv : SameValue α) (laid : LaidOut list) (fromIndex toIndex : Int) :
    ∃ list', JSAPIListOp.step sv list (.getSubList fromIndex toIndex) = some list' ∧ LaidOut list' := by
  obtain ⟨es, enc, layout⟩ := laid
  have nodes : list.length = es.length := enc.nodes
  rw [JSAPIListOp.step, JSAPIList.getSubList]
  simp only [nodes]
  by_cases badFrom : fromIndex < 0 ∨
      (if (es.length : Int) > toIndex then toIndex else es.length) ≤ fromIndex
  · exact ⟨list, by rw [if_pos badFrom]; rfl, es, enc, layout⟩
  · rw [if_neg badFrom]
    by_cases badTo : toIndex < 0 ∨ toIndex ≤ fromIndex ∨ (es.length : Int) < toIndex
    · exact ⟨list, by rw [if_pos badTo]; rfl, es, enc, layout⟩
    · obtain ⟨i, rfl⟩ : ∃ i : Nat, fromIndex = i := ⟨fromIndex.toNat, by omega⟩
      obtain ⟨j, rfl⟩ : ∃ j : Nat, toIndex = j := ⟨toIndex.toNat, by omega⟩
      have length : elementsStartIndex + ((j : Int) - i + 1) * ListDerived.single.entrySize =
          dataIndex .single (j - i + 1) := by
        rw [dataIndex, show (((j - i + 1 : Nat) : Int)) = (j : Int) - i + 1 by omega]
      have sentinel : (cells (⟨.newTaggedArray (dataIndex .single (j - i + 1))⟩ : TaggedSingleList α)
          0).data = .hole := by
        have low := dataIndex_nonneg (d := .single) (j - i)
        have high := dataIndex_succ (d := .single) (j - i)
        have size : ListDerived.single.entrySize = 2 := rfl
        simp only [cells, dataIndex_zero, getElement, elementsStartIndex, TaggedArray.newTaggedArray]
        rw [if_neg (by omega)]
        rfl
      obtain ⟨sub', run, enc', -⟩ := TaggedSingleList.getSubList_spec enc (i := i) (j := j)
        (by omega) (by omega) (by exact Int.le_refl _) sentinel
      rw [if_neg badTo, length, run]
      exact ⟨⟨sub', true⟩, rfl, _, enc', by simp⟩

/-- `FastGet` leaves a list that is laid out, and reads what `Get` reads. -/
theorem fastGet_laidOut (laid : LaidOut list) (index : Int) :
    LaidOut (list.fastGet index).2 ∧ list.get index = some (list.fastGet index).1 := by
  obtain ⟨es, enc, layout⟩ := laid
  have nodes : list.length = es.length := enc.nodes
  unfold JSAPIList.fastGet JSAPIList.get TaggedSingleList.get
  simp only [nodes]
  by_cases outside : index < 0 ∨ (es.length : Int) ≤ index
  · simp only [outside, if_true]
    exact ⟨⟨es, enc, layout⟩, trivial⟩
  · obtain ⟨i, rfl⟩ : ∃ i : Nat, index = i := ⟨index.toNat, by omega⟩
    have below : i < es.length := by omega
    have slot : elementsStartIndex + ((i : Int) + 1) * ListDerived.single.entrySize =
        dataIndex .single (i + 1) := by
      rw [dataIndex]
      rfl
    have value : list.singleList.findElementByIndex i =
        some ((list.singleList.values es).getD i .undefined) := by
      rw [findElementByIndex_eq enc, if_pos (by omega)]
      rfl
    have read : ∀ (l : TaggedSingleList α), l.values (List.range' 1 es.length) =
        list.singleList.values es →
        l.getElement (dataIndex .single (i + 1)) = (list.singleList.values es).getD i .undefined := by
      intro l same
      have node := getElement_node l (List.range' 1 es.length) (i := i) (by simpa using below)
      rw [ringNode_range below] at node
      rw [node, ← same, List.getD_eq_getElem _ _ (by simpa using below)]
    simp only [outside, if_false, slot, value]
    cases flag : list.isOrderedList with
    | false =>
      obtain ⟨enc', same⟩ := TaggedSingleList.sortByNodeOrder_spec enc
      simp only [if_true]
      exact ⟨⟨_, enc', fun _ => by simp⟩, by rw [read _ same]⟩
    | true =>
      have sorted := layout flag
      simp only [Bool.true_eq_false, if_false]
      refine ⟨⟨es, enc, layout⟩, ?_⟩
      rw [read _ (by rw [← sorted])]

theorem step_laidOut (sv : SameValue α) (laid : LaidOut list) (op : JSAPIListOp α)
    (ok : op.KeepsLayout list) : ∃ list', op.step sv list = some list' ∧ LaidOut list' := by
  cases op with
  | add value => exact add_laidOut laid ok value
  | insert value index => exact insert_laidOut sv laid value index ok
  | set index value => exact set_laidOut sv laid index value
  | removeByIndex index => exact removeByIndex_laidOut sv laid index
  | remove element => exact remove_laidOut sv laid element ok
  | sort sortCompare =>
    obtain ⟨es, enc, -⟩ := laid
    obtain ⟨l', run, same⟩ := TaggedSingleList.sort_rearranges sortCompare enc
    refine ⟨⟨l', false⟩, ?_, es, same.encodes enc, by simp⟩
    rw [JSAPIListOp.step, JSAPIList.sort, run]
    rfl
  | clear => exact ⟨_, rfl, clear_laidOut laid⟩
  | getSubList fromIndex toIndex => exact getSubList_laidOut sv laid fromIndex toIndex
  | fastGet index => exact ⟨_, rfl, (fastGet_laidOut laid index).1⟩

end Steps

/-- In every run that adds no node behind deleted ones while the list counts as ordered, `FastGet` and
    `Get` agree, and an ordered list has its `i`-th node in the `i`-th place. -/
theorem fastGet_of_run (sv : SameValue α) (ops : List (JSAPIListOp α))
    (allowed : Allowed (JSAPIListOp.step sv) (fun list op => op.KeepsLayout list)
      JSAPIList.construct ops) :
    ∃ list, run (JSAPIListOp.step sv) JSAPIList.construct ops = some list ∧
      (∀ index, list.get index = some (list.fastGet index).1) ∧
      (list.isOrderedList = true → ∀ i : Nat, (i : Int) < list.length →
        list.singleList.findDataIndexByNodeIndex i =
          some (elementsStartIndex + (i + 1) * ListDerived.single.entrySize)) := by
  obtain ⟨list, reached, laid⟩ := run_invariant (I := fun list : JSAPIList α => LaidOut list)
    (fun list op laid ok => step_laidOut sv laid op ok) ops _
    ⟨[], singleCreate_encodes 10, by simp⟩ allowed
  refine ⟨list, reached, fun index => (fastGet_laidOut laid index).2, fun ordered i below => ?_⟩
  obtain ⟨es, enc, layout⟩ := laid
  have nodes : list.length = es.length := enc.nodes
  have inside : i < es.length := by omega
  rw [findDataIndexByNodeIndex_eq enc inside, layout ordered, ringNode_range inside, dataIndex]
  rfl

theorem fastGet_of_run_removed :
    ∃ list, run (JSAPIListOp.step (identical Unit)) JSAPIList.construct
        [.add (.int 1), .add (.int 2), .removeByIndex 0, .add (.int 3)] = some list ∧
      (∀ index, list.get index = some (list.fastGet index).1) ∧
      (list.isOrderedList = true → ∀ i : Nat, (i : Int) < list.length →
        list.singleList.findDataIndexByNodeIndex i =
          some (elementsStartIndex + (i + 1) * ListDerived.single.entrySize)) :=
  fastGet_of_run (identical Unit) _ (by decide +kernel)

/-- The last of two elements is removed and another one added: `FastGet` reads the hole it left. -/
theorem fastGet_fails_after_removeLast :
    ∃ list, run (JSAPIListOp.step (identical Unit)) JSAPIList.construct
        [.add (.int 1), .add (.int 2), .removeByIndex 1, .add (.int 3)] = some list ∧
      list.isOrderedList = true ∧ list.get 1 = some (.int 3) ∧ (list.fastGet 1).1 = .hole := by
  have state : (run (JSAPIListOp.step (identical Unit)) JSAPIList.construct
      [.add (.int 1), .add (.int 2), .removeByIndex 1, .add (.int 3)]).map
      (fun list => (list.isOrderedList, list.get 1, (list.fastGet 1).1)) =
      some (true, some (.int 3), .hole) := by decide +kernel
  obtain ⟨list, reached, read⟩ := Option.map_eq_some_iff.mp state
  simp only [Prod.mk.injEq] at read
  exact ⟨list, reached, read⟩

end ArkRuntime
