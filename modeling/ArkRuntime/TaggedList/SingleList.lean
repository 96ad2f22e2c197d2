import ArkRuntime.TaggedList.Grow

/-!
# The operations of a single list

What `AddNode`, `SortByNodeOrder`, `Sort` and `GetSubList` of `TaggedSingleList` do to the nodes. The
numbers of the nodes matter here: a list whose nodes are `1, ..., n` in link order can be read by slot.
-/

namespace ArkRuntime

open TaggedList

variable {α : Type}

namespace TaggedSingleList

variable {l : TaggedSingleList α} {es : List Nat}

variable {i j : Nat}

/-- `AddNode` inserts the value at index `i`. The new node comes after all live and deleted nodes,
    or, in a list that has grown, after the live ones. -/
theorem addNode_spec (enc : Encodes l es) (le : i ≤ es.length) (value : JSTaggedValue α) {index : Int}
    (place : index = -1 ∧ i = es.length ∨ index = i) :
    ∃ (l' : TaggedSingleList α) (es' : List Nat) (e : Nat),
      addNode l value index (dataIndex .single (ringNode 0 es i)) = some l' ∧
      Encodes l' (es'.take i ++ e :: es'.drop i) ∧
      l'.values (es'.take i ++ e :: es'.drop i) = (l.values es).insertIdx i value ∧
      (l.mustGrow = false → es' = es ∧ (e : Int) = l.hdr.nodes + l.hdr.deleted + 1) ∧
      (l.mustGrow = true → e = es.length + 1 ∧ (es' = es ∨ es' = List.range' 1 es.length)) := by
  have nodes := enc.nodes
  have deleted := enc.deleted
  unfold addNode
  cases grow : l.mustGrow with
  | false =>
    have stay : l.growCapacity = none := by simp [growCapacity, grow]
    have free : l.hdr.nodes + l.hdr.deleted + 1 = (l.hdr.nodes + l.hdr.deleted + 1).toNat := by omega
    obtain ⟨enc', values, -⟩ :=
      link_encodes enc le free (fits_of_not_mustGrow enc grow) value place
    rw [stay]
    exact ⟨_, es, _, rfl, enc', values, fun _ => ⟨rfl, free.symm⟩, by simp⟩
  | true =>
    obtain ⟨list, es', grown, encL, same, none, fits, order⟩ := growCapacity_grown enc grow
    have count : es'.length = es.length := by
      have := congrArg List.length same
      simpa using this
    have free : list.hdr.nodes + list.hdr.deleted + 1 = ((es.length + 1 : Nat) : Int) := by
      rw [encL.nodes, none, count]
      omega
    obtain ⟨enc', values, -⟩ :=
      link_encodes encL (count ▸ le) free fits value (count ▸ place)
    have prev : (if index = -1 then some list.tailTable else list.findPrevNodeByIndex index) =
        some (dataIndex .single (ringNode 0 es' i)) := by
      rcases place with ⟨rfl, rfl⟩ | rfl
      · rw [if_pos rfl, tailTable_eq, encL.tail, ← ringNode_length, count]
      · rw [if_neg (by omega)]
        exact findPrevNodeByIndex_eq encL (count ▸ le)
    rw [grown]
    simp only [prev, Option.bind_eq_bind, Option.bind_some]
    exact ⟨_, es', _, rfl, enc', by rw [values, same], by simp, fun _ => ⟨rfl, order⟩⟩

/-- `SortByNodeOrder` gives the nodes `1, ..., n`. -/
theorem sortByNodeOrder_spec (enc : Encodes l es) :
    Encodes (sortByNodeOrder l) (List.range' 1 es.length) ∧
      (sortByNodeOrder l).values (List.range' 1 es.length) = l.values es := by
  have count : l.numberOfNodes = es.length := enc.nodes
  obtain ⟨N, room, size⟩ : ∃ N : Nat, es.length ≤ N ∧
      (if (es.length : Int) < defaultArrayLength then defaultArrayLength else es.length) = N := by
    unfold defaultArrayLength
    split_ifs with small
    · exact ⟨10, by omega, rfl⟩
    · exact ⟨es.length, Nat.le_refl _, rfl⟩
  have first : elementsStartIndex + ListDerived.single.entrySize = dataIndex .single 1 := by
    rw [dataIndex_succ, dataIndex_zero]
  -- the header as it is written, up to the writes that repeat `Create`
  let header : TaggedSingleList α := (((TaggedList.create .single N).setNumberOfNodes
    es.length).setTailTable (dataIndex .single es.length)).setElement (dataIndex .single 0) .hole
  have fits : Fits .single (TaggedList.create .single N : TaggedSingleList α).length es.length :=
    (fits_of_length (length_create N)).mono room
  have ready : ReadyFor (header.setNext (dataIndex .single 0) (dataIndex .single 1)) es.length := by
    have fits0 := fits.mono (Nat.zero_le _)
    have hdr : (header.setNext (dataIndex .single 0) (dataIndex .single 1)).hdr =
        ⟨es.length, 0, elementsStartIndex, dataIndex .single es.length, dataIndex .single (N + 1)⟩ := by
      rw [hdr_setNext, hdr_setData, hdr_setTailTable _ (by simpa using fits.header),
        hdr_setNumberOfNodes, hdr_create]
    have cells : (header.setNext (dataIndex .single 0) (dataIndex .single 1)).cells 0 =
        { (TaggedList.create .single N : TaggedSingleList α).cells 0 with
          data := .hole, next := dataIndex .single 1 } := by
      rw [cells_setNext _ (by simpa [header] using fits0), Function.update_self,
        cells_setData _ (by simpa using fits0), Function.update_self]
      simp
    refine ⟨by rw [hdr], by rw [hdr], by rw [hdr], by rw [hdr], ?_, by rw [cells], by rw [cells]; simp, by simp⟩
    rw [length_eq, hdr, ← length_create (α := α)]
    exact fits
  obtain ⟨list', run, copied⟩ := copyNodes_spec enc ready.fits es.length (Nat.le_refl _)
  have made : sortByNodeOrder l = (forLoop l.copyNode es.length
      (header.setNext (dataIndex .single 0) (dataIndex .single 1), l.nextOf elementsStartIndex)).1.setNext
        (dataIndex .single es.length) elementsStartIndex := by
    unfold sortByNodeOrder
    simp only [count, size, first, Int.toNat_natCast, header, dataIndex_zero]
    rfl
  rw [made, run]
  exact copied_encodes ready copied

/-! ## `Sort` -/

section Sorting

variable {l' : TaggedSingleList α}

/-- The values have changed, the ring has not. -/
def Rearranges (l l' : TaggedSingleList α) : Prop := SameLinks l l' ∧ (l'.cells 0).data = (l.cells 0).data

theorem rearranges_setData (same : Rearranges l l') (enc : Encodes l es) (below : i < es.length)
    (v : JSTaggedValue α) : Rearranges l (l'.setElement ((es.map (dataIndex .single)).getD i 0) v) := by
  have place : (es.map (dataIndex .single)).getD i 0 = dataIndex .single es[i] := by
    rw [List.getD_eq_getElem _ _ (by simpa using below), List.getElem_map]
  have mem : es[i] ∈ es := List.getElem_mem below
  have fits : Fits .single l'.length es[i] := by
    rw [length_eq, same.1.hdr]
    exact enc.fits_node (List.mem_cons_of_mem 0 mem)
  have notZero : (0 : Nat) ≠ es[i] := fun h => (List.nodup_cons.mp enc.distinct).1 (h ▸ mem)
  rw [place]
  refine ⟨same.1.trans (sameLinks_setData v fits), ?_⟩
  rw [cells_setData v fits, Function.update_of_ne notZero]
  exact same.2

theorem mapNodeIndexToDataIndex_eq (enc : Encodes l es) :
    (mapNodeIndexToDataIndex l es.length).1 = es.map (dataIndex .single) := by
  have walk : ∀ n ≤ es.length, mapNodeIndexToDataIndex l n =
      ((es.take n).map (dataIndex .single), dataIndex .single (ringNode 0 es n)) := by
    intro n
    induction n with
    | zero =>
      intro _
      rw [ringNode_zero, dataIndex_zero]
      rfl
    | succ n ih =>
      intro le
      have before := ih (by omega)
      unfold mapNodeIndexToDataIndex at before ⊢
      rw [forLoop, before]
      simp only [enc.nextOf (i := n) (by omega)]
      rw [List.take_succ_eq_append_getElem le, List.map_append, ringNode_succ le]
      rfl
  rw [walk es.length (Nat.le_refl _), List.take_length]

/-- The binary search ends. -/
theorem sortSearch_total (cmp : JSTaggedValue α → JSTaggedValue α → Completion Bool)
    (l : TaggedSingleList α) (indexMap : List Int) (v : JSTaggedValue α) (i : Nat) :
    ∃ result, sortSearch cmp l indexMap v i = some result := by
  have round : ∀ n s, n = s.2 - s.1 →
      (∃ s' m, sortSearchStep cmp l indexMap v s = .inl s' ∧ m < n ∧ m = s'.2 - s'.1) ∨
        (∃ result, sortSearchStep cmp l indexMap v s = .inr result ∧ True) := by
    rintro n ⟨first, last⟩ rfl
    unfold sortSearchStep
    by_cases more : first < last
    · simp only [more, if_true]
      cases cmp (l.getElement (indexMap.getD ((first + last) / 2) 0)) v with
      | abrupt => exact .inr ⟨_, rfl, trivial⟩
      | normal positive =>
        cases positive with
        | true => exact .inl ⟨_, _, rfl, by simp only; omega, rfl⟩
        | false => exact .inl ⟨_, _, rfl, by simp only; omega, rfl⟩
    · simp only [more, if_false]
      exact .inr ⟨_, rfl, trivial⟩
  obtain ⟨result, run, -⟩ := iter_spec round (i + 1) i (0, i) rfl (Nat.lt_succ_self i)
  exact ⟨result, run⟩

theorem sortShift_rearranges (same : Rearranges l l') (enc : Encodes l es) {endIndex : Nat}
    (below : i < es.length) (before : endIndex < i) (v : JSTaggedValue α) :
    Rearranges l (sortShift l' (es.map (dataIndex .single)) v i endIndex) := by
  unfold sortShift
  apply rearranges_setData _ enc (by omega)
  apply forLoop_spec (I := fun _ l'' => Rearranges l l'') same
  intro k l'' hk same''
  exact rearranges_setData same'' enc (by omega) _

theorem sortRound_rearranges (cmp : JSTaggedValue α → JSTaggedValue α → Completion Bool)
    (same : Rearranges l l') (enc : Encodes l es) (below : i < es.length) :
    ∃ result, sortRound cmp (es.map (dataIndex .single)) l' i = some result ∧
      ∀ l'', result = .normal l'' → Rearranges l l'' := by
  obtain ⟨found, search⟩ := sortSearch_total cmp l' (es.map (dataIndex .single))
    (l'.getElement ((es.map (dataIndex .single)).getD i 0)) i
  unfold sortRound
  simp only [search, Option.bind_eq_bind, Option.bind_some]
  cases found with
  | abrupt => exact ⟨_, rfl, by simp⟩
  | normal endIndex =>
    by_cases before : endIndex < i
    · simp only [before, if_true]
      refine ⟨_, rfl, fun l'' made => ?_⟩
      cases made
      exact sortShift_rearranges same enc below before _
    · simp only [before, if_false]
      refine ⟨_, rfl, fun l'' made => ?_⟩
      cases made
      exact same

/-- `Sort` returns and moves values only, also when the callback throws. -/
theorem sort_rearranges (cmp : JSTaggedValue α → JSTaggedValue α → Completion Bool)
    (enc : Encodes l es) : ∃ l', sort cmp l = some l' ∧ Rearranges l l' := by
  have count : l.numberOfNodes.toNat = es.length := by
    rw [numberOfNodes_eq, enc.nodes]
    rfl
  unfold sort
  simp only [count, mapNodeIndexToDataIndex_eq enc]
  have rounds : ∀ (L : List Nat), (∀ i ∈ L, i < es.length) → ∀ (s : Bool × TaggedSingleList α),
      Rearranges l s.2 → ∃ s', L.foldlM (sortStep cmp (es.map (dataIndex .single))) s = some s' ∧
        Rearranges l s'.2 := by
    intro L
    induction L with
    | nil => intro _ s same; exact ⟨s, rfl, same⟩
    | cons i L ih =>
      intro below s same
      rw [List.foldlM_cons, sortStep]
      have rest := ih fun j hj => below j (List.mem_cons_of_mem _ hj)
      cases thrown : s.1 with
      | true =>
        simp only [if_true, Option.bind_eq_bind, Option.bind_some]
        exact rest s same
      | false =>
        obtain ⟨result, run, keeps⟩ := sortRound_rearranges cmp same enc
          (below i List.mem_cons_self)
        simp only [Bool.false_eq_true, if_false, run, Option.map_some, Option.bind_eq_bind,
          Option.bind_some]
        cases result with
        | abrupt => exact rest _ same
        | normal l'' => exact rest _ (keeps l'' rfl)
  obtain ⟨s', run, same⟩ := rounds (List.range' 1 (es.length - 1))
    (fun i hi => by have := List.mem_range'_1.mp hi; omega) (false, l) ⟨.refl l, rfl⟩
  exact ⟨s'.2, by rw [run]; rfl, same⟩

theorem Rearranges.encodes (same : Rearranges l l') (enc : Encodes l es) : Encodes l' es :=
  enc.of_sameLinks same.1 (same.2.trans enc.sentinel)

end Sorting

/-! ## `GetSubList` -/

section SubList

variable {sub : TaggedSingleList α}

theorem ringNode_inj (distinct : (0 :: es).Nodup) (hi : i ≤ es.length) (hj : j ≤ es.length) :
    ringNode 0 es i = ringNode 0 es j ↔ i = j := by
  have inside : ∀ k, k ≤ es.length → k < (0 :: es).length := fun k hk => by simp; omega
  simp only [ringNode, List.getD_eq_getElem _ _ (inside i hi), List.getD_eq_getElem _ _ (inside j hj)]
  exact distinct.getElem_inj_iff

theorem subListRange_eq (enc : Encodes l es) (lt : i < j) (le : j ≤ es.length) :
    subListRange l i j = some (dataIndex .single (ringNode 0 es (i + 1)),
      dataIndex .single (ringNode 0 es (j + 1))) := by
  have enough := enc.lt_fuel
  unfold subListRange
  rw [enc.nextOf_start]
  apply iter_walk (s := fun k => (dataIndex .single (ringNode 0 es (k + 1)), (k : Int),
    if i < k then dataIndex .single (ringNode 0 es (i + 1)) else -1)) (m := j - 1)
  · intro k hk
    simp only [enc.ne_start (i := k) (by omega), if_false, enc.nextOf (i := k + 1) (by omega)]
    rw [if_neg (by omega)]
    by_cases here : k = i
    · subst here
      simp
    · have notHere : ¬ (k : Int) = i := by omega
      have same : i < k + 1 ↔ i < k := by omega
      simp only [notHere, if_false, same]
      rfl
  · simp only [enc.ne_start (i := j - 1) (by omega), if_false, enc.nextOf (i := j - 1 + 1) (by omega)]
    rw [if_pos (by omega), show j - 1 + 1 + 1 = j + 1 by omega]
    by_cases here : j - 1 = i
    · rw [if_pos (by omega), here]
    · rw [if_neg (by omega), if_pos (by omega)]
  · omega

/-- `k` nodes have been written to the sublist; `first` is the node of the list the first of them
    was read from. -/
structure Filled (l sub : TaggedSingleList α) (es : List Nat) (first k : Nat)
    (sub' : TaggedSingleList α) : Prop where
  hdr : sub'.hdr = sub.hdr
  sentinel : (sub'.cells 0).data = (sub.cells 0).data
  data : ∀ i < k, (sub'.cells (i + 1)).data = (l.cells (ringNode 0 es (first + i))).data
  next : ∀ i < k, (sub'.cells i).next = dataIndex .single (i + 1)

theorem subListStep_spec (enc : Encodes l es) {first k : Nat} {sub' : TaggedSingleList α} {stop : Nat}
    (filled : Filled l sub es first k sub') (inside : first + k ≤ es.length)
    (more : ringNode 0 es (first + k) ≠ stop) (fits : Fits .single sub.length (k + 1)) :
    ∃ sub'', subListStep l (dataIndex .single stop)
        (sub', dataIndex .single (ringNode 0 es (first + k)), dataIndex .single k) =
        .inl (sub'', dataIndex .single (ringNode 0 es (first + (k + 1))), dataIndex .single (k + 1)) ∧
      Filled l sub es first (k + 1) sub'' := by
  have length : sub'.length = sub.length := by rw [length_eq, filled.hdr]; rfl
  have fits' : Fits .single sub'.length (k + 1) := length ▸ fits
  have fitsK : Fits .single sub'.length k := fits'.mono (Nat.le_succ k)
  have goOn : ¬ dataIndex .single (ringNode 0 es (first + k)) = dataIndex .single stop := by
    rwa [dataIndex_inj]
  refine ⟨_, by
    unfold subListStep
    simp only [goOn, if_false, ← dataIndex_succ, enc.nextOf inside]
    rfl, ?_⟩
  have cells : ((sub'.setNext (dataIndex .single k) (dataIndex .single (k + 1))).setElement
      (dataIndex .single (k + 1)) (l.getElement (dataIndex .single (ringNode 0 es (first + k))))).cells =
      Function.update (Function.update sub'.cells k
        { sub'.cells k with next := dataIndex .single (k + 1) }) (k + 1)
        { sub'.cells (k + 1) with data := (l.cells (ringNode 0 es (first + k))).data } := by
    rw [cells_setData _ (by simpa using fits'), cells_setNext _ fitsK,
      Function.update_of_ne (by omega)]
    rfl
  refine ⟨by rw [hdr_setData, hdr_setNext, filled.hdr], ?_, ?_, ?_⟩
  · rw [cells, Function.update_of_ne (by omega), Function.update_apply]
    split_ifs with zero
    · rw [← filled.sentinel, zero]
    · exact filled.sentinel
  · intro i hi
    rw [cells, Function.update_apply]
    split_ifs with last
    · have same : i = k := by omega
      rw [same]
    · rw [Function.update_apply]
      split_ifs with pre
      · rw [← pre]
        exact filled.data i (by omega)
      · exact filled.data i (by omega)
  · intro i hi
    rw [cells, Function.update_of_ne (by omega), Function.update_apply]
    split_ifs with last
    · rw [last]
    · exact filled.next i (by omega)

theorem subList_iter (enc : Encodes l es) (lt : i < j) (le : j ≤ es.length)
    (fits : Fits .single sub.length (j - i)) :
    ∃ sub', iter (subListStep l (dataIndex .single (ringNode 0 es (j + 1)))) l.fuel
        (sub, dataIndex .single (ringNode 0 es (i + 1)), elementsStartIndex) =
        some (sub', dataIndex .single (j - i)) ∧ Filled l sub es (i + 1) (j - i) sub' := by
  have enough := enc.lt_fuel
  have more : ∀ k, k < j - i → ringNode 0 es (i + 1 + k) ≠ ringNode 0 es (j + 1) := by
    intro k hk
    rcases Nat.lt_or_ge j es.length with low | high
    · rw [ne_eq, ringNode_inj enc.distinct (by omega) (by omega)]
      omega
    · have ne := enc.ne_start (i := i + k) (by omega)
      rw [ringNode_end high, show i + 1 + k = i + k + 1 by omega]
      rwa [ne_eq, dataIndex_eq_start] at ne
  have result : ∃ r, iter (subListStep l (dataIndex .single (ringNode 0 es (j + 1)))) l.fuel
      (sub, dataIndex .single (ringNode 0 es (i + 1)), elementsStartIndex) = some r ∧
      Filled l sub es (i + 1) (j - i) r.1 ∧ r.2 = dataIndex .single (j - i) := by
    apply iter_spec (I := fun n (s : TaggedSingleList α × Int × Int) => ∃ k, n + k = j - i ∧
      s.2 = (dataIndex .single (ringNode 0 es (i + 1 + k)), dataIndex .single k) ∧
      Filled l sub es (i + 1) k s.1) _ l.fuel (j - i)
    · refine ⟨0, rfl, ?_, rfl, rfl, ?_, ?_⟩
      · rw [← dataIndex_zero (d := .single)]
      · exact fun _ h => absurd h (Nat.not_lt_zero _)
      · exact fun _ h => absurd h (Nat.not_lt_zero _)
    · omega
    · rintro n ⟨sub', index⟩ ⟨k, sum, rfl, filled⟩
      by_cases done : k = j - i
      · right
        subst done
        refine ⟨(sub', dataIndex .single (j - i)), ?_, filled, rfl⟩
        unfold subListStep
        simp only [show i + 1 + (j - i) = j + 1 by omega, if_true]
      · left
        obtain ⟨sub'', step, filled'⟩ := subListStep_spec enc filled (by omega) (more k (by omega))
          (fits.mono (by omega))
        exact ⟨_, n - 1, step, by omega, k + 1, by omega, rfl, filled'⟩
  obtain ⟨⟨sub', cur⟩, run, filled, rfl⟩ := result
  exact ⟨sub', run, filled⟩

/-- `GetSubList` gives the nodes `1, ..., j - i`, with the values from `i` on. -/
theorem getSubList_spec (enc : Encodes l es) (lt : i < j) (le : j ≤ es.length)
    (fits : Fits .single sub.length (j - i)) (sentinel : (sub.cells 0).data = .hole) :
    ∃ sub', getSubList l i j sub = some sub' ∧ Encodes sub' (List.range' 1 (j - i)) ∧
      sub'.values (List.range' 1 (j - i)) = ((l.values es).drop i).take (j - i) := by
  obtain ⟨sub', run, filled⟩ := subList_iter enc lt le fits
  have length : sub'.length = sub.length := by rw [length_eq, filled.hdr]; rfl
  have fits' : Fits .single sub'.length (j - i) := length ▸ fits
  unfold getSubList
  rw [subListRange_eq enc lt le]
  simp only [Option.bind_eq_bind, Option.bind_some, run]
  refine ⟨_, rfl, ?_⟩
  have hdr : (((((sub'.setNext (dataIndex .single (j - i)) elementsStartIndex).setHeadTable
      elementsStartIndex).setTailTable (dataIndex .single (j - i))).setNumberOfNodes
      ((j : Int) - i)).setNumberOfDeletedNodes 0).hdr =
      ⟨(j : Int) - i, 0, elementsStartIndex, dataIndex .single (j - i), sub.length⟩ := by
    rw [hdr_setNumberOfDeletedNodes, hdr_setNumberOfNodes,
      hdr_setTailTable _ (by simpa using fits'.header), hdr_setHeadTable _ (by simpa using fits'.header),
      hdr_setNext, filled.hdr]
    rfl
  have cells : (((((sub'.setNext (dataIndex .single (j - i)) elementsStartIndex).setHeadTable
      elementsStartIndex).setTailTable (dataIndex .single (j - i))).setNumberOfNodes
      ((j : Int) - i)).setNumberOfDeletedNodes 0).cells =
      Function.update sub'.cells (j - i) { sub'.cells (j - i) with next := elementsStartIndex } := by
    rw [cells_setNumberOfDeletedNodes, cells_setNumberOfNodes, cells_setTailTable, cells_setHeadTable,
      cells_setNext _ fits']
  generalize (((((sub'.setNext (dataIndex .single (j - i)) elementsStartIndex).setHeadTable
      elementsStartIndex).setTailTable (dataIndex .single (j - i))).setNumberOfNodes
      ((j : Int) - i)).setNumberOfDeletedNodes 0) = made at hdr cells
  have data : ∀ k, (made.cells k).data = (sub'.cells k).data := by
    intro k
    rw [cells, Function.update_apply]
    split_ifs with last
    · rw [last]
    · rfl
  refine ⟨⟨?_, ?_, ?_, ?_, ?_, ?_, ?_, ?_, ?_⟩, ?_⟩
  · rw [hdr]
  · rw [hdr, getLastD_range]
  · rw [hdr, List.length_range']
    simp only
    omega
  · exact Int.le_of_eq (by rw [hdr])
  · rw [length_eq, hdr]
    simp only
    rw [show ((j : Int) - i + 0).toNat = j - i by omega]
    exact fits
  · rw [List.nodup_cons]
    exact ⟨by simp, List.nodup_range'⟩
  · intro e he
    have := (List.mem_range'_1.mp he).2
    rw [hdr]
    simp only
    omega
  · rw [ring_iff, List.length_range']
    intro k hk
    refine ⟨?_, by simp⟩
    rw [ringNode_range hk, cells]
    rcases Nat.lt_or_ge k (j - i) with low | high
    · rw [Function.update_of_ne (by omega), filled.next k low, ringNode_range low]
    · have last : k = j - i := by omega
      subst last
      rw [Function.update_self, ringNode_end (by rw [List.length_range']), dataIndex_zero]
  · rw [data, filled.sentinel, sentinel]
  · apply List.ext_getElem (by simp; omega)
    intro k h1 h2
    have below : k < j - i := by simpa using h1
    have inside : i + k < (l.values es).length := by rw [length_values]; omega
    simp only [values, List.getElem_map, List.getElem_range', data, List.getElem_take, List.getElem_drop]
    rw [show 1 + 1 * k = k + 1 by omega, filled.data k below, show i + 1 + k = i + k + 1 by omega,
      ringNode_succ (by omega)]

end SubList

end TaggedSingleList

end ArkRuntime
