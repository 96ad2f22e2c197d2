import ArkRuntime.TaggedList.Update

/-!
# Empty lists, copies and growth

`Create` and `Clear` end in an empty ring. `CopyArray` keeps the slots of a list that has no deleted
nodes; else it places the nodes one after the other in link order, so that the new list has the
nodes `1, ..., n`. Either way the sequence of values is the same, and `GrowCapacity` makes room.
-/

namespace ArkRuntime

namespace TaggedList

variable {d : ListDerived} {α : Type}

/-! ## Empty lists -/

section Empty

variable {l : TaggedList d α}

/-- The writes at the end of `Create` and `Clear`. -/
def emptied (l : TaggedList d α) : TaggedList d α :=
  let l := l.setNumberOfNodes 0
  let l := l.setNumberOfDeletedNodes 0
  let l := l.setHeadTable elementsStartIndex
  let l := l.setTailTable elementsStartIndex
  let l := l.setElement elementsStartIndex .hole
  l.setNext elementsStartIndex elementsStartIndex

theorem hdr_emptied (fits : Fits d l.length 0) :
    l.emptied.hdr = ⟨0, 0, elementsStartIndex, elementsStartIndex, l.length⟩ := by
  have long := fits.header
  unfold emptied
  simp only
  rw [← dataIndex_zero (d := d), hdr_setNext, hdr_setData, hdr_setTailTable _ (by simpa using long),
    hdr_setHeadTable _ (by simpa using long), hdr_setNumberOfDeletedNodes, hdr_setNumberOfNodes]
  rfl

theorem cells_emptied (fits : Fits d l.length 0) :
    l.emptied.cells = Function.update l.cells 0
      { l.cells 0 with data := .hole, next := elementsStartIndex } := by
  unfold emptied
  simp only
  rw [← dataIndex_zero (d := d), cells_setNext _ (by simpa using fits),
    cells_setData _ (by simpa using fits)]
  simp only [cells_setTailTable, cells_setHeadTable, cells_setNumberOfDeletedNodes,
    cells_setNumberOfNodes, Function.update_idem, Function.update_self]

/-- A ring of the sentinel alone. -/
theorem encodes_nil (fits : Fits d l.length 0)
    (hdr : l.hdr = ⟨0, 0, elementsStartIndex, elementsStartIndex, l.length⟩)
    (data : (l.cells 0).data = .hole) (next : (l.cells 0).next = elementsStartIndex)
    (prev : d = .double → (l.cells 0).prev = elementsStartIndex) : Encodes l [] := by
  refine ⟨by rw [hdr], ?_, by rw [hdr]; rfl, by simp [hdr], ?_, by simp, by simp, ?_, data⟩
  · rw [hdr]
    exact dataIndex_zero.symm
  · rw [hdr]
    exact fits
  · rw [ring_iff]
    intro i le
    have zero : i = 0 := by simpa using le
    subst zero
    refine ⟨?_, fun double => ?_⟩
    · exact next.trans dataIndex_zero.symm
    · exact (prev double).trans dataIndex_zero.symm

theorem fits_of_length {n : Nat} (len : l.length = dataIndex d (n + 1)) : Fits d l.length n :=
  Int.le_of_eq len.symm

theorem create_eq (n : Nat) : ∃ l : TaggedList d α, create d n = l.emptied ∧
    l.length = dataIndex d (n + 1) := by
  refine ⟨⟨.newTaggedArray (elementsStartIndex + d.entrySize + n * d.entrySize)⟩, rfl, ?_⟩
  simp only [TaggedArray.newTaggedArray, dataIndex]
  rw [Int.natCast_add, Int.natCast_one, Int.add_mul, Int.one_mul]
  omega

theorem length_create (n : Nat) : (create d n : TaggedList d α).length = dataIndex d (n + 1) := by
  obtain ⟨l, made, len⟩ := create_eq (d := d) (α := α) n
  have fits : Fits d l.length 0 := (fits_of_length len).mono (Nat.zero_le n)
  rw [made, length_eq, hdr_emptied fits, len]

theorem hdr_create (n : Nat) : (create d n : TaggedList d α).hdr =
    ⟨0, 0, elementsStartIndex, elementsStartIndex, dataIndex d (n + 1)⟩ := by
  obtain ⟨l, made, len⟩ := create_eq (d := d) (α := α) n
  have fits : Fits d l.length 0 := (fits_of_length len).mono (Nat.zero_le n)
  rw [made, hdr_emptied fits, len]

theorem cells_create (n : Nat) : ((create d n : TaggedList d α).cells 0).data = .hole ∧
    ((create d n : TaggedList d α).cells 0).next = elementsStartIndex := by
  obtain ⟨l, made, len⟩ := create_eq (d := d) (α := α) n
  have fits : Fits d l.length 0 := (fits_of_length len).mono (Nat.zero_le n)
  rw [made, cells_emptied fits, Function.update_self]
  exact ⟨rfl, rfl⟩

end Empty

theorem singleCreate_encodes (n : Nat) : Encodes (TaggedSingleList.create n : TaggedSingleList α) [] := by
  unfold TaggedSingleList.create
  have fits := fits_of_length (length_create (d := .single) (α := α) n)
  have hdr := hdr_create (d := .single) (α := α) n
  rw [← length_create (α := α)] at hdr
  obtain ⟨data, next⟩ := cells_create (d := .single) (α := α) n
  exact encodes_nil (fits.mono (Nat.zero_le n)) hdr data next (by simp)

theorem doubleCreate_encodes (n : Nat) : Encodes (TaggedDoubleList.create n : TaggedDoubleList α) [] := by
  unfold TaggedDoubleList.create
  have fits := (fits_of_length (length_create (d := .double) (α := α) n)).mono (Nat.zero_le n)
  have hdr := hdr_create (d := .double) (α := α) n
  rw [← length_create (α := α)] at hdr
  obtain ⟨data, next⟩ := cells_create (d := .double) (α := α) n
  rw [← dataIndex_zero (d := .double)]
  apply encodes_nil
  · rw [length_setPrev]
    exact fits
  · rw [hdr_setPrev, length_setPrev, hdr]
  · rw [cells_setPrev _ fits, Function.update_self]
    exact data
  · rw [cells_setPrev _ fits, Function.update_self]
    exact next
  · rw [cells_setPrev _ fits, Function.update_self]
    exact fun _ => dataIndex_zero

/-! ## `Clear` -/

section Clear

variable {l : TaggedList d α} {es : List Nat}

/-- The loop of `Clear` changes values only. -/
theorem clear_eq (enc : Encodes l es) : ∃ l', SameLinks l l' ∧ l.clear = l'.emptied := by
  have nodes := enc.nodes
  have walk : ∀ n ≤ es.length, ∃ l', SameLinks l l' ∧
      forLoop (fun _ (s : TaggedList d α × Int) =>
        let dataIndex := s.1.nextOf s.2
        (s.1.setElement dataIndex .hole, dataIndex)) n (l, elementsStartIndex) =
        (l', dataIndex d (ringNode 0 es n)) := by
    intro n
    induction n with
    | zero =>
      intro _
      exact ⟨l, .refl l, by rw [ringNode_zero, dataIndex_zero]; rfl⟩
    | succ n ih =>
      intro le
      obtain ⟨l', same, run⟩ := ih (by omega)
      have next : l'.nextOf (dataIndex d (ringNode 0 es n)) = dataIndex d (ringNode 0 es (n + 1)) := by
        rw [nextOf_dataIndex, same.next]
        exact enc.nextOf (by omega)
      have fits : Fits d l'.length (ringNode 0 es (n + 1)) := by
        rw [length_eq, same.hdr]
        exact enc.fits_node (ringNode_mem _)
      refine ⟨_, same.trans (sameLinks_setData .hole fits), ?_⟩
      simp only [forLoop, run, next]
  obtain ⟨l', same, run⟩ := walk es.length (Nat.le_refl _)
  refine ⟨l', same, ?_⟩
  have count : l.numberOfNodes.toNat = es.length := by
    rw [numberOfNodes_eq, nodes]
    rfl
  unfold clear
  rw [count, run]
  rfl

theorem singleClear_encodes {l : TaggedSingleList α} (enc : Encodes l es) : Encodes l.clear [] := by
  obtain ⟨l', same, run⟩ := clear_eq enc
  have fits : Fits .single l'.length 0 := by
    rw [length_eq, same.hdr]
    exact enc.fits_node List.mem_cons_self
  have hdr := hdr_emptied fits
  have length : l'.emptied.length = l'.length := by rw [length_eq, hdr]
  rw [run]
  apply encodes_nil
  · rw [length]
    exact fits
  · rw [length, hdr]
  · rw [cells_emptied fits, Function.update_self]
  · rw [cells_emptied fits, Function.update_self]
  · simp

theorem doubleClear_encodes {l : TaggedDoubleList α} (enc : Encodes l es) :
    Encodes (TaggedDoubleList.clear l) [] := by
  obtain ⟨l', same, run⟩ := clear_eq enc
  have fits : Fits .double l'.length 0 := by
    rw [length_eq, same.hdr]
    exact enc.fits_node List.mem_cons_self
  have hdr := hdr_emptied fits
  have length : l'.emptied.length = l'.length := by rw [length_eq, hdr]
  have fits' : Fits .double l'.emptied.length 0 := length ▸ fits
  unfold TaggedDoubleList.clear
  rw [run, ← dataIndex_zero (d := .double)]
  apply encodes_nil
  · rw [length_setPrev]
    exact fits'
  · rw [hdr_setPrev, length_setPrev, length, hdr]
  · rw [cells_setPrev _ fits', Function.update_self, cells_emptied fits, Function.update_self]
  · rw [cells_setPrev _ fits', Function.update_self, cells_emptied fits, Function.update_self]
  · rw [cells_setPrev _ fits', Function.update_self]
    exact fun _ => dataIndex_zero

end Clear

/-! ## Compaction -/

section Compact

variable {l list : TaggedList d α} {es : List Nat}

theorem dataIndex_succ (e : Nat) : dataIndex d (e + 1) = dataIndex d e + d.entrySize := by
  rw [dataIndex, dataIndex, Int.natCast_add, Int.natCast_one, Int.add_mul, Int.one_mul]
  omega

/-- The nodes `1, ..., n` have been written, in the order of the old list. -/
structure Copied (l : TaggedList d α) (es : List Nat) (list : TaggedList d α) (n : Nat)
    (list' : TaggedList d α) : Prop where
  hdr : list'.hdr = list.hdr
  other : ∀ j, j = 0 ∨ n < j → list'.cells j = list.cells j
  data : ∀ k < n, (list'.cells (k + 1)).data = (l.cells (ringNode 0 es (k + 1))).data
  next : ∀ k < n, (list'.cells (k + 1)).next = dataIndex d (k + 2)
  prev : d = .double → ∀ k < n, (list'.cells (k + 1)).prev = dataIndex d k

theorem copyNode_spec (enc : Encodes l es) {n : Nat} (below : n < es.length)
    (fits : Fits d list.length es.length) {list' : TaggedList d α} (copied : Copied l es list n list') :
    ∃ list'', l.copyNode n (list', dataIndex d (ringNode 0 es (n + 1))) =
        (list'', dataIndex d (ringNode 0 es (n + 2))) ∧ Copied l es list (n + 1) list'' := by
  have index : elementsStartIndex + d.entrySize + n * d.entrySize = dataIndex d (n + 1) := by
    rw [dataIndex_succ, dataIndex]
    omega
  have length : list'.length = list.length := by rw [length_eq, copied.hdr]; rfl
  have fits' : Fits d list'.length (n + 1) := by
    rw [length]
    exact fits.mono below
  unfold copyNode
  simp only [index, ← dataIndex_succ, enc.nextOf (i := n + 1) below]
  refine ⟨_, rfl, ?_⟩
  rw [show elementsStartIndex + (n : Int) * d.entrySize = dataIndex d n from rfl]
  have cells : ∀ j, (((list'.setElement (dataIndex d (n + 1))
      (l.getElement (dataIndex d (ringNode 0 es (n + 1))))).setNext (dataIndex d (n + 1))
      (dataIndex d (n + 1 + 1))).whenDouble fun list => list.setPrev (dataIndex d (n + 1))
      (dataIndex d n)).cells j = if j = n + 1 then
        ({ list'.cells j with
            data := (l.cells (ringNode 0 es (n + 1))).data
            next := dataIndex d (n + 2) } : ListCell α).withPrev d (dataIndex d n)
      else list'.cells j := by
    intro j
    rw [cells_whenSetPrev _ (by simpa using fits'), cells_setNext _ (by simpa using fits'),
      cells_setData _ fits']
    simp only [Function.update_idem, Function.update_self, Function.update_apply,
      getElement_dataIndex]
    by_cases here : j = n + 1
    · subst here
      simp only [if_true]
    · simp only [here, if_false]
  refine ⟨?_, ?_, ?_, ?_, ?_⟩
  · rw [hdr_whenSetPrev, hdr_setNext, hdr_setData, copied.hdr]
  · intro j hj
    rw [cells, if_neg (by omega)]
    exact copied.other j (by omega)
  · intro k hk
    rw [cells]
    split_ifs with here
    · have same : k = n := by omega
      rw [ListCell.data_withPrev, same]
    · exact copied.data k (by omega)
  · intro k hk
    rw [cells]
    split_ifs with here
    · have same : k = n := by omega
      rw [ListCell.next_withPrev, same]
    · exact copied.next k (by omega)
  · rintro rfl k hk
    rw [cells]
    split_ifs with here
    · have same : k = n := by omega
      rw [same]
      rfl
    · exact copied.prev rfl k (by omega)

theorem copyNodes_spec (enc : Encodes l es) (fits : Fits d list.length es.length) :
    ∀ n ≤ es.length, ∃ list', forLoop l.copyNode n (list, l.nextOf elementsStartIndex) =
      (list', dataIndex d (ringNode 0 es (n + 1))) ∧ Copied l es list n list' := by
  intro n
  induction n with
  | zero =>
    intro _
    refine ⟨list, by rw [enc.nextOf_start]; rfl, rfl, fun _ _ => rfl, ?_, ?_, ?_⟩
    · intro k hk; omega
    · intro k hk; omega
    · intro _ k hk; omega
  | succ n ih =>
    intro le
    obtain ⟨list', run, copied⟩ := ih (by omega)
    obtain ⟨list'', step, copied'⟩ := copyNode_spec enc le fits copied
    exact ⟨list'', by rw [forLoop, run, step], copied'⟩

/-- The header and the sentinel before the nodes are copied. -/
structure ReadyFor (list : TaggedList d α) (n : Nat) : Prop where
  nodes : list.hdr.nodes = n
  deleted : list.hdr.deleted = 0
  head : list.hdr.head = elementsStartIndex
  tail : list.hdr.tail = dataIndex d n
  fits : Fits d list.length n
  data : (list.cells 0).data = .hole
  next : 0 < n → (list.cells 0).next = dataIndex d 1
  prev : d = .double → (list.cells 0).prev = dataIndex d n

theorem ringNode_range {n i : Nat} (le : i ≤ n) : ringNode 0 (List.range' 1 n) i = i := by
  cases i with
  | zero => rfl
  | succ i =>
    have below : i < (List.range' 1 n).length := by
      rw [List.length_range']
      exact le
    rw [ringNode_succ below]
    simp [Nat.add_comm]

theorem getLastD_range (n : Nat) : (List.range' 1 n).getLastD 0 = n := by
  rw [← ringNode_length, List.length_range', ringNode_range (Nat.le_refl n)]

/-- All nodes copied and the ring closed: the new list has the nodes `1, ..., n`. -/
theorem copied_encodes {list' : TaggedList d α} (ready : ReadyFor list es.length)
    (copied : Copied l es list es.length list') :
    Encodes (list'.setNext (dataIndex d es.length) elementsStartIndex) (List.range' 1 es.length) ∧
      (list'.setNext (dataIndex d es.length) elementsStartIndex).values (List.range' 1 es.length) =
        l.values es := by
  have length : list'.length = list.length := by rw [length_eq, copied.hdr]; rfl
  have fits : Fits d list'.length es.length := length ▸ ready.fits
  have hdr : (list'.setNext (dataIndex d es.length) elementsStartIndex).hdr = list.hdr := by
    rw [hdr_setNext, copied.hdr]
  have cells := cells_setNext elementsStartIndex fits
  have zero := copied.other 0 (.inl rfl)
  have sum : list.hdr.nodes + list.hdr.deleted = es.length := by
    rw [ready.nodes, ready.deleted]
    omega
  generalize list'.setNext (dataIndex d es.length) elementsStartIndex = made at hdr cells
  have length' : made.length = list.length := by rw [length_eq, hdr]; rfl
  have data : ∀ j, (made.cells j).data = (list'.cells j).data := by
    intro j
    rw [cells, Function.update_apply]
    split_ifs with same
    · rw [same]
    · rfl
  have prev : ∀ j, (made.cells j).prev = (list'.cells j).prev := by
    intro j
    rw [cells, Function.update_apply]
    split_ifs with same
    · rw [same]
    · rfl
  refine ⟨⟨?_, ?_, ?_, ?_, ?_, ?_, ?_, ?_, ?_⟩, ?_⟩
  · rw [hdr, ready.head]
  · rw [hdr, ready.tail, getLastD_range]
  · rw [hdr, ready.nodes, List.length_range']
  · exact Int.le_of_eq (by rw [hdr, ready.deleted])
  · rw [hdr, sum, length']
    exact ready.fits
  · rw [List.nodup_cons]
    exact ⟨by simp, List.nodup_range'⟩
  · intro e he
    rw [hdr, sum]
    have := (List.mem_range'_1.mp he).2
    omega
  · rw [ring_iff, List.length_range']
    intro i le
    rw [ringNode_range le]
    rcases Nat.lt_or_ge i es.length with low | high
    · rw [ringNode_range low]
      refine ⟨?_, fun double => ?_⟩
      · rw [cells, Function.update_of_ne (by omega)]
        cases i with
        | zero => rw [zero, ready.next low]
        | succ i => exact copied.next i (by omega)
      · rw [prev]
        exact copied.prev double i low
    · have last : i = es.length := by omega
      subst last
      rw [ringNode_end (by rw [List.length_range'])]
      refine ⟨?_, fun double => ?_⟩
      · rw [cells, Function.update_self, dataIndex_zero]
      · rw [prev, zero, ready.prev double]
  · rw [data, zero, ready.data]
  · apply List.ext_getElem (by simp)
    intro k h1 h2
    have below : k < es.length := by simpa using h2
    simp only [values, List.getElem_map, List.getElem_range', data]
    rw [show 1 + 1 * k = k + 1 by omega, copied.data k below, ringNode_succ below]

end Compact

/-! ## `CopyArray` -/

section Copy

variable {l list : TaggedList d α} {es : List Nat}

/-- The writes of the compacting `CopyArray` before its loop. -/
def compactHeader (list : TaggedList d α) (n : Nat) : TaggedList d α :=
  let list := list.setNumberOfNodes n
  let list := list.setNumberOfDeletedNodes 0
  let list := list.setHeadTable (dataIndex d 0)
  let list := list.setTailTable (dataIndex d n)
  let list := list.setElement (dataIndex d 0) .hole
  let list := list.setNext (dataIndex d 0) (dataIndex d 1)
  list.whenDouble fun list => list.setPrev (dataIndex d 0) (dataIndex d n)

theorem hdr_compactHeader {n : Nat} (fits : Fits d list.length n) :
    (list.compactHeader n).hdr = ⟨n, 0, dataIndex d 0, dataIndex d n, list.length⟩ := by
  have long := fits.header
  unfold compactHeader
  simp only
  rw [hdr_whenSetPrev, hdr_setNext, hdr_setData, hdr_setTailTable _ (by simpa using long),
    hdr_setHeadTable _ (by simpa using long), hdr_setNumberOfDeletedNodes, hdr_setNumberOfNodes]
  rfl

theorem compactHeader_ready {n : Nat} (fits : Fits d list.length n) :
    ReadyFor (list.compactHeader n) n := by
  have fits0 : Fits d list.length 0 := fits.mono (Nat.zero_le _)
  have hdr := hdr_compactHeader fits
  have cells : (list.compactHeader n).cells 0 =
      ListCell.withPrev d (dataIndex d n)
        { list.cells 0 with data := .hole, next := dataIndex d 1 } := by
    unfold compactHeader
    simp only
    rw [cells_whenSetPrev _ (by simpa using fits0), cells_setNext _ (by simpa using fits0),
      cells_setData _ (by simpa using fits0)]
    simp
  refine ⟨by rw [hdr], by rw [hdr], by rw [hdr, ← dataIndex_zero (d := d)], by rw [hdr], ?_, ?_, ?_, ?_⟩
  · rw [length_eq, hdr]
    exact fits
  · rw [cells, ListCell.data_withPrev]
  · rw [cells, ListCell.next_withPrev]
    exact fun _ => rfl
  · rintro rfl
    rw [cells]
    rfl

/-- The compacting copy, into a fresh list. -/
theorem copyArray_compact (enc : Encodes l es) (deleted : l.hdr.deleted ≠ 0)
    (fits : Fits d list.length es.length) :
    Encodes (l.copyArray list) (List.range' 1 es.length) ∧
      (l.copyArray list).values (List.range' 1 es.length) = l.values es ∧
      (l.copyArray list).hdr.deleted = 0 ∧ (l.copyArray list).length = list.length := by
  have count : l.numberOfNodes = es.length := enc.nodes
  have ready := compactHeader_ready fits
  obtain ⟨list', run, copied⟩ := copyNodes_spec enc ready.fits es.length (Nat.le_refl _)
  have header : l.copyArray list = (forLoop l.copyNode es.length
      (list.compactHeader es.length, l.nextOf elementsStartIndex)).1.setNext
        (dataIndex d es.length) elementsStartIndex := by
    have first : elementsStartIndex + d.entrySize = dataIndex d 1 := by
      rw [dataIndex_succ, dataIndex_zero]
    unfold copyArray compactHeader
    rw [if_neg (by rwa [numberOfDeletedNodes_eq])]
    simp only [count, first, Int.toNat_natCast, dataIndex_zero]
    rfl
  rw [header, run]
  obtain ⟨enc', values⟩ := copied_encodes ready copied
  refine ⟨enc', values, ?_, ?_⟩
  · rw [hdr_setNext, copied.hdr, ready.deleted]
  · rw [length_setNext, length_eq, copied.hdr, hdr_compactHeader fits]

/-- The loop of the plain copy. -/
theorem copySlots_spec (l list : TaggedList d α) (n : Nat) :
    (forLoop (fun i (list : TaggedList d α) => list.setElement i (l.getElement i)) n list).length =
        list.length ∧
      ∀ j : Nat, j < n → (j : Int) < list.length →
        (forLoop (fun i (list : TaggedList d α) => list.setElement i (l.getElement i)) n list).get j =
          l.getElement j := by
  induction n with
  | zero => exact ⟨rfl, fun j hj => absurd hj (Nat.not_lt_zero j)⟩
  | succ n ih =>
    obtain ⟨length, slots⟩ := ih
    rw [forLoop]
    generalize forLoop (fun i (list : TaggedList d α) => list.setElement i (l.getElement i)) n list =
      list' at length slots
    refine ⟨by rw [length_setElement, length], fun j below inside => ?_⟩
    by_cases here : j = n
    · subst here
      unfold setElement
      rw [if_neg (by omega), get_set, if_pos rfl]
    · rw [get_setElement _ _ (by omega)]
      exact slots j (by omega) inside

/-- Lists with the same slots have the same nodes. -/
theorem cells_congr {l l' : TaggedList d α} {e : Nat}
    (same : ∀ j, 4 ≤ j → j < dataIndex d (e + 1) → l'.getElement j = l.getElement j) :
    l'.cells e = l.cells e := by
  have low := dataIndex_nonneg (d := d) e
  have high := dataIndex_succ (d := d) e
  cases d with
  | single =>
    have size : ListDerived.single.entrySize = 2 := rfl
    simp only [cells, nextOf, same _ low (by omega),
      same (dataIndex .single e + 1) (by omega) (by omega)]
  | double =>
    have size : ListDerived.double.entrySize = 3 := rfl
    simp only [cells, nextOf, prevOf, same _ low (by omega),
      same (dataIndex .double e + 1) (by omega) (by omega),
      same (dataIndex .double e + 2) (by omega) (by omega)]

/-- A list is encoded by its header and its nodes. -/
theorem Encodes.congr {l' : TaggedList d α} (enc : Encodes l es)
    (hdr : l'.hdr = { l.hdr with length := l'.length })
    (fits : Fits d l'.length (l.hdr.nodes + l.hdr.deleted).toNat)
    (cells : ∀ e ∈ 0 :: es, l'.cells e = l.cells e) :
    Encodes l' es ∧ l'.values es = l.values es := by
  refine ⟨⟨?_, ?_, ?_, ?_, ?_, enc.distinct, ?_, ?_, ?_⟩, ?_⟩
  · rw [hdr]; exact enc.head
  · rw [hdr]; exact enc.tail
  · rw [hdr]; exact enc.nodes
  · rw [hdr]; exact enc.deleted
  · rw [hdr]; exact fits
  · rw [hdr]; exact enc.used
  · rw [ring_iff]
    intro i le
    have link := ring_iff.mp enc.ring i le
    rw [Linked, cells _ (ringNode_mem _), cells _ (ringNode_mem _)]
    exact link
  · rw [cells 0 List.mem_cons_self]
    exact enc.sentinel
  · exact List.map_congr_left fun e he => by rw [cells e (List.mem_cons_of_mem _ he)]

/-- The plain copy of a list without deleted nodes. -/
theorem copyArray_plain (enc : Encodes l es) (deleted : l.hdr.deleted = 0)
    (fits : Fits d list.length es.length) :
    Encodes (l.copyArray list) es ∧ (l.copyArray list).values es = l.values es ∧
      (l.copyArray list).hdr = { l.hdr with length := list.length } := by
  have header := enc.fits.header
  have header' := fits.header
  have nodes := enc.nodes
  have fitsL := enc.fits
  rw [nodes, deleted, Int.add_zero, Int.toNat_natCast] at fitsL
  obtain ⟨length, slots⟩ := copySlots_spec l list l.length.toNat
  have run : l.copyArray list = (forLoop (fun i (list : TaggedList d α) =>
      list.setElement i (l.getElement i)) l.length.toNat list).setNumberOfDeletedNodes 0 := by
    unfold copyArray
    rw [numberOfDeletedNodes_eq, deleted, if_pos rfl]
  rw [run]
  generalize forLoop (fun i (list : TaggedList d α) => list.setElement i (l.getElement i))
    l.length.toNat list = list' at length slots
  have read : ∀ j : Int, 0 ≤ j → j < l.length → j < list.length →
      list'.getElement j = l.getElement j := by
    intro j nonneg inside inside'
    have slot := slots j.toNat (by omega) (by omega)
    rw [Int.toNat_of_nonneg nonneg] at slot
    rw [getElement, if_neg (by omega), slot]
  have hdr : (list'.setNumberOfDeletedNodes 0).hdr = { l.hdr with length := list.length } := by
    rw [hdr_setNumberOfDeletedNodes]
    have first : list'.get 0 = l.get 0 := by
      have slot := slots 0 (by omega) (by omega)
      simp only [Int.natCast_zero] at slot
      rw [slot, getElement, if_neg (by omega)]
    simp only [TaggedList.hdr, ListHeader.mk.injEq, numberOfNodes, first, headTable, tailTable,
      read 2 (by omega) (by omega) (by omega), read 3 (by omega) (by omega) (by omega), length,
      true_and, and_true]
    exact deleted.symm
  have cells : ∀ e ∈ 0 :: es, (list'.setNumberOfDeletedNodes 0).cells e = l.cells e := by
    intro e he
    rw [cells_setNumberOfDeletedNodes]
    have le : e ≤ es.length := by
      rcases List.mem_cons.mp he with h | h
      · omega
      · have := enc.used e h
        omega
    have inside := fitsL.mono le
    have inside' := fits.mono le
    unfold Fits at inside inside'
    exact cells_congr fun j low high => read j (by omega) (by omega) (by omega)
  have fits' : Fits d (list'.setNumberOfDeletedNodes 0).length (l.hdr.nodes + l.hdr.deleted).toNat := by
    rw [length_setNumberOfDeletedNodes, length, nodes, deleted, Int.add_zero, Int.toNat_natCast]
    exact fits
  obtain ⟨enc', values⟩ := enc.congr (by rw [hdr, length_setNumberOfDeletedNodes, length]) fits' cells
  exact ⟨enc', values, hdr⟩

end Copy

/-! ## `GrowCapacity` -/

section GrowCapacity

variable {l : TaggedList d α} {es : List Nat}

theorem fits_of_not_mustGrow (enc : Encodes l es) (stay : l.mustGrow = false) :
    Fits d l.length (l.hdr.nodes + l.hdr.deleted + 1).toNat := by
  have nodes := enc.nodes
  have deleted := enc.deleted
  have room := Decidable.not_not.mp (of_decide_eq_false stay)
  simp only [numberOfNodes_eq, numberOfDeletedNodes_eq] at room
  obtain ⟨e, sum⟩ : ∃ e : Nat, l.hdr.nodes + l.hdr.deleted + 1 = e :=
    ⟨(l.hdr.nodes + l.hdr.deleted + 1).toNat, by omega⟩
  rw [sum, Int.toNat_natCast]
  cases d <;>
    simp only [Fits, dataIndex, elementsStartIndex, ListDerived.entrySize] at * <;> omega

/-- `GrowCapacity` gives a list of the same values with room for one more node. -/
theorem growCapacity_grown (enc : Encodes l es) (grow : l.mustGrow = true) :
    ∃ list es', l.growCapacity = some list ∧ Encodes list es' ∧ list.values es' = l.values es ∧
      list.hdr.deleted = 0 ∧ Fits d list.length (es.length + 1) ∧
      (es' = es ∨ es' = List.range' 1 es.length) := by
  have nodes := enc.nodes
  obtain ⟨N, room, size⟩ : ∃ N : Nat, es.length + 1 ≤ N ∧
      (if l.numberOfNodes + l.numberOfNodes / 2 < defaultArrayLength then defaultArrayLength
        else l.numberOfNodes + l.numberOfNodes / 2) = N := by
    rw [numberOfNodes_eq, nodes]
    unfold defaultArrayLength
    split_ifs with small
    · exact ⟨10, by omega, rfl⟩
    · exact ⟨es.length + es.length / 2, by omega, by omega⟩
  have run : l.growCapacity = some (l.copyArray (create d N)) := by
    unfold growCapacity
    rw [if_pos grow]
    simp only [size]
  have fits : Fits d (create d N : TaggedList d α).length (es.length + 1) :=
    (fits_of_length (length_create N)).mono room
  have fits' := fits.mono (Nat.le_succ es.length)
  by_cases deleted : l.hdr.deleted = 0
  · obtain ⟨enc', values, hdr⟩ := copyArray_plain enc deleted fits'
    refine ⟨_, es, run, enc', values, by rw [hdr]; exact deleted, ?_, .inl rfl⟩
    rw [length_eq, hdr]
    exact fits
  · obtain ⟨enc', values, hdr, length⟩ := copyArray_compact enc deleted fits'
    refine ⟨_, _, run, enc', values, hdr, ?_, .inr rfl⟩
    rw [length]
    exact fits

end GrowCapacity

end TaggedList

end ArkRuntime
