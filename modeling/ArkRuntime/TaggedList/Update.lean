import ArkRuntime.Misc.SlotArray
import ArkRuntime.TaggedList.Search

/-!
# Changing the ring

What the operations that write to the array do to the sequence of nodes: a node is taken out
(`RemoveNode`), linked in (`InsertNode`), given another value, or all nodes are dropped (`Clear`).
-/

namespace ArkRuntime

namespace TaggedList

variable {d : ListDerived} {α : Type}

/-! ## Taking a node out -/

section Remove

variable {l : TaggedList d α} {as bs : List Nat} {e : Nat}

theorem Encodes.next_before (enc : Encodes l (as ++ e :: bs)) :
    (l.cells (as.getLastD 0)).next = dataIndex d e :=
  (ring_append.mp enc.ring).2.2.1

theorem Encodes.next_after (enc : Encodes l (as ++ e :: bs)) :
    (l.cells e).next = dataIndex d (bs.headD 0) := by
  have split : as ++ e :: bs = (as ++ [e]) ++ bs := by simp
  have ring := enc.ring
  rw [split, ring_append] at ring
  simpa using ring.2.2.1

/-- The nodes around the place between `as` and `bs` are nodes of the list. -/
theorem getLastD_mem_append (as bs : List Nat) : as.getLastD 0 ∈ 0 :: (as ++ bs) := by
  rcases List.mem_cons.mp (getLastD_mem (s := 0) as) with h | h
  · rw [h]
    exact List.mem_cons_self
  · exact List.mem_cons_of_mem _ (List.mem_append_left _ h)

theorem headD_mem_append (as bs : List Nat) : bs.headD 0 ∈ 0 :: (as ++ bs) := by
  rcases List.mem_cons.mp (headD_mem (s := 0) bs) with h | h
  · rw [h]
    exact List.mem_cons_self
  · exact List.mem_cons_of_mem _ (List.mem_append_right _ h)

theorem perm_node (as bs : List Nat) (e : Nat) :
    (0 :: (as ++ e :: bs)).Perm (e :: 0 :: (as ++ bs)) := by
  have moved : (as ++ e :: bs).Perm (e :: (as ++ bs)) := List.perm_middle
  exact (moved.cons 0).trans (List.Perm.swap _ _ _)

theorem not_mem_of_distinct (distinct : (0 :: (as ++ e :: bs)).Nodup) : e ∉ 0 :: (as ++ bs) :=
  (List.nodup_cons.mp ((perm_node as bs e).nodup distinct)).1

theorem getLastD_ne_zero (distinct : (0 :: (as ++ e :: bs)).Nodup) :
    (as ++ e :: bs).getLastD 0 ≠ 0 := by
  have nonempty : as ++ e :: bs ≠ [] := by simp
  have mem : (as ++ e :: bs).getLastD 0 ∈ as ++ e :: bs := by
    rw [List.getLastD_eq_getLast?, List.getLast?_eq_some_getLast nonempty, Option.getD_some]
    exact List.getLast_mem nonempty
  intro zero
  rw [zero] at mem
  exact (List.nodup_cons.mp distinct).1 mem

/-- `RemoveNode` in a list that is not empty. -/
theorem removeNode_eq (enc : Encodes l (as ++ e :: bs)) :
    ∃ l1 : TaggedList d α, l1.cells = l.cells ∧ l1.length = l.length ∧
      l1.hdr = { l.hdr with tail := if dataIndex d e = l.hdr.tail then dataIndex d (as.getLastD 0)
        else l.hdr.tail } ∧
      l.removeNode (dataIndex d (as.getLastD 0)) =
        let l2 := ((l1.whenDouble fun l => l.setPrev (dataIndex d (bs.headD 0))
          (dataIndex d (as.getLastD 0))).setElement (dataIndex d e) .hole).setNext
            (dataIndex d (as.getLastD 0)) (dataIndex d (bs.headD 0))
        (l2.setNumberOfNodes (l2.numberOfNodes - 1)).setNumberOfDeletedNodes
          (l2.numberOfDeletedNodes + 1) := by
  have nonempty : l.tailTable ≠ l.headTable := by
    rw [tailTable_eq, headTable_eq, enc.tail, enc.head, ne_eq, dataIndex_eq_start]
    exact getLastD_ne_zero enc.distinct
  have next : l.nextOf (dataIndex d (as.getLastD 0)) = dataIndex d e := enc.next_before
  have after : l.nextOf (dataIndex d e) = dataIndex d (bs.headD 0) := enc.next_after
  refine ⟨if dataIndex d e = l.tailTable then l.setTailTable (dataIndex d (as.getLastD 0)) else l,
    ?_, ?_, ?_, ?_⟩
  · split_ifs <;> simp
  · split_ifs <;> simp
  · rw [tailTable_eq]
    split_ifs
    · exact hdr_setTailTable _ (enc.fits.header)
    · rfl
  · simp only [removeNode, if_pos nonempty, next, after]
    rfl

/-- The fields of the nodes after `RemoveNode`. -/
theorem cells_removeNode (enc : Encodes l (as ++ e :: bs)) (j : Nat) :
    (((l.removeNode (dataIndex d (as.getLastD 0))).cells j).data =
      if j = e then .hole else (l.cells j).data) ∧
    (((l.removeNode (dataIndex d (as.getLastD 0))).cells j).next =
      if j = as.getLastD 0 then dataIndex d (bs.headD 0) else (l.cells j).next) ∧
    (d = .double → ((l.removeNode (dataIndex d (as.getLastD 0))).cells j).prev =
      if j = bs.headD 0 then dataIndex d (as.getLastD 0) else (l.cells j).prev) := by
  obtain ⟨l1, cells, length, -, run⟩ := removeNode_eq enc
  have fitsP : Fits d l1.length (as.getLastD 0) := length ▸ enc.fits_node (getLastD_mem_append as _)
  have fitsE : Fits d l1.length e := length ▸ enc.fits_node (by simp)
  have fitsQ : Fits d l1.length (bs.headD 0) := by
    rw [length]
    apply enc.fits_node
    rcases List.mem_cons.mp (headD_mem (s := 0) bs) with h | h
    · rw [h]; exact List.mem_cons_self
    · exact List.mem_cons_of_mem _ (List.mem_append_right _ (List.mem_cons_of_mem _ h))
  have apart := not_mem_of_distinct enc.distinct
  have ne : as.getLastD 0 ≠ e := fun h => apart (h ▸ getLastD_mem_append as bs)
  have ne' : bs.headD 0 ≠ e := fun h => apart (h ▸ headD_mem_append as bs)
  rw [run]
  simp only [cells_setNumberOfDeletedNodes, cells_setNumberOfNodes]
  rw [cells_setNext _ (by simpa using fitsP), cells_setData _ (by simpa using fitsE),
    cells_whenSetPrev _ fitsQ, cells]
  clear run
  generalize as.getLastD 0 = p at *
  generalize bs.headD 0 = q at *
  simp only [Function.update_apply]
  refine ⟨?_, ?_, ?_⟩
  · split_ifs <;> simp_all
  · split_ifs <;> simp_all
  · rintro rfl
    split_ifs <;> simp_all [ListCell.withPrev]

theorem hdr_removeNode (enc : Encodes l (as ++ e :: bs)) :
    (l.removeNode (dataIndex d (as.getLastD 0))).hdr =
      { l.hdr with
        nodes := l.hdr.nodes - 1
        deleted := l.hdr.deleted + 1
        tail := if dataIndex d e = l.hdr.tail then dataIndex d (as.getLastD 0) else l.hdr.tail } := by
  obtain ⟨l1, -, -, hdr, run⟩ := removeNode_eq enc
  rw [run]
  simp only [hdr_setNumberOfDeletedNodes, hdr_setNumberOfNodes, numberOfNodes_eq,
    numberOfDeletedNodes_eq, hdr_setNext, hdr_setData, hdr_whenSetPrev, hdr]

theorem getLastD_append (as bs : List Nat) (s : Nat) :
    (as ++ bs).getLastD s = bs.getLastD (as.getLastD s) := by
  cases bs using List.reverseRecOn with
  | nil => simp
  | append_singleton bs b => simp [← List.append_assoc]

/-- The new tail, when the node between `as` and `bs` is taken out. -/
theorem tail_removeNode (distinct : (0 :: (as ++ e :: bs)).Nodup) :
    (if dataIndex d e = dataIndex d ((as ++ e :: bs).getLastD 0) then dataIndex d (as.getLastD 0)
      else dataIndex d ((as ++ e :: bs).getLastD 0)) = dataIndex d ((as ++ bs).getLastD 0) := by
  simp only [dataIndex_inj]
  cases bs using List.reverseRecOn with
  | nil => simp
  | append_singleton bs b =>
    have last : (as ++ e :: (bs ++ [b])).getLastD 0 = b := by
      rw [show as ++ e :: (bs ++ [b]) = (as ++ e :: bs) ++ [b] by simp, getLastD_append]
      rfl
    have last' : (as ++ (bs ++ [b])).getLastD 0 = b := by
      rw [← List.append_assoc, getLastD_append]
      rfl
    have ne : e ≠ b := by
      rintro rfl
      have apart := not_mem_of_distinct distinct
      simp at apart
    rw [last, last', if_neg ne]

/-- `RemoveNode` after the nodes `as` takes out the next node. -/
theorem removeNode_spec (enc : Encodes l (as ++ e :: bs)) :
    Encodes (l.removeNode (dataIndex d (as.getLastD 0))) (as ++ bs) ∧
      (l.removeNode (dataIndex d (as.getLastD 0))).values (as ++ bs) = l.values (as ++ bs) := by
  have hdr := hdr_removeNode enc
  have cells := cells_removeNode enc
  have apart := not_mem_of_distinct enc.distinct
  have tail := enc.tail
  have nodes := enc.nodes
  generalize l.removeNode (dataIndex d (as.getLastD 0)) = l' at hdr cells
  have distinct : (0 :: (as ++ bs)).Nodup :=
    enc.distinct.sublist ((List.Sublist.append_left (List.sublist_cons_self e bs) as).cons_cons 0)
  have sum : l'.hdr.nodes + l'.hdr.deleted = l.hdr.nodes + l.hdr.deleted := by rw [hdr]; simp only; omega
  have length : l'.length = l.length := by rw [length_eq, hdr]; rfl
  have data : ∀ j ∈ 0 :: (as ++ bs), (l'.cells j).data = (l.cells j).data := by
    intro j hj
    have ne : j ≠ e := fun same => apart (same ▸ hj)
    rw [(cells j).1, if_neg ne]
  refine ⟨⟨?_, ?_, ?_, ?_, ?_, distinct, ?_, ?_, ?_⟩, ?_⟩
  · rw [hdr]
    exact enc.head
  · rw [hdr, tail]
    exact tail_removeNode enc.distinct
  · rw [hdr]
    simp only [nodes, List.length_append, List.length_cons]
    omega
  · rw [hdr]
    have := enc.deleted
    simp only
    omega
  · rw [sum, length]
    exact enc.fits
  · intro j hj
    rw [sum]
    apply enc.used
    rcases List.mem_append.mp hj with h | h
    · exact List.mem_append_left _ h
    · exact List.mem_append_right _ (List.mem_cons_of_mem _ h)
  · refine enc.ring.remove ?_ distinct ⟨?_, fun double => ?_⟩
    · intro a ha b hb notP notQ link
      refine ⟨?_, fun double => ?_⟩
      · rw [(cells a).2.1, if_neg notP]
        exact link.1
      · rw [(cells b).2.2 double, if_neg notQ]
        exact link.2 double
    · rw [(cells _).2.1, if_pos rfl]
    · rw [(cells _).2.2 double, if_pos rfl]
  · rw [data 0 List.mem_cons_self]
    exact enc.sentinel
  · exact List.map_congr_left fun j hj => data j (List.mem_cons_of_mem _ hj)

end Remove

/-! ## Linking a node in -/

section Insert

variable {l : TaggedList d α} {as bs : List Nat} {e : Nat}

theorem Encodes.next_between (enc : Encodes l (as ++ bs)) :
    (l.cells (as.getLastD 0)).next = dataIndex d (bs.headD 0) :=
  (ring_append.mp enc.ring).2.2.1

/-- The fields of the nodes after `InsertNode`. -/
theorem cells_insertNode (enc : Encodes l (as ++ bs)) (fresh : e ∉ 0 :: (as ++ bs))
    (fits : Fits d l.length e) (value : JSTaggedValue α) (j : Nat) :
    (((l.insertNode value (dataIndex d (as.getLastD 0)) (dataIndex d e)).cells j).data =
      if j = e then value else (l.cells j).data) ∧
    (((l.insertNode value (dataIndex d (as.getLastD 0)) (dataIndex d e)).cells j).next =
      if j = e then dataIndex d (bs.headD 0)
      else if j = as.getLastD 0 then dataIndex d e else (l.cells j).next) ∧
    (d = .double →
      ((l.insertNode value (dataIndex d (as.getLastD 0)) (dataIndex d e)).cells j).prev =
      if j = e then dataIndex d (as.getLastD 0)
      else if j = bs.headD 0 then dataIndex d e else (l.cells j).prev) := by
  have fitsP := enc.fits_node (getLastD_mem_append as bs)
  have fitsQ := enc.fits_node (headD_mem_append as bs)
  have ne : as.getLastD 0 ≠ e := fun h => fresh (h ▸ getLastD_mem_append as bs)
  have ne' : bs.headD 0 ≠ e := fun h => fresh (h ▸ headD_mem_append as bs)
  have next : l.nextOf (dataIndex d (as.getLastD 0)) = dataIndex d (bs.headD 0) := enc.next_between
  unfold insertNode
  simp only [next, cells_setNumberOfNodes]
  rw [cells_whenSetPrev _ (by simpa using fits), cells_setNext _ (by simpa using fits),
    cells_setData _ (by simpa using fits), cells_whenSetPrev _ (by simpa using fitsQ),
    cells_setNext _ fitsP]
  clear next
  generalize as.getLastD 0 = p at *
  generalize bs.headD 0 = q at *
  simp only [Function.update_apply]
  refine ⟨?_, ?_, ?_⟩
  · split_ifs <;> simp_all
  · split_ifs <;> simp_all
  · rintro rfl
    split_ifs <;> simp_all [ListCell.withPrev]

theorem hdr_insertNode (enc : Encodes l (as ++ bs)) (value : JSTaggedValue α) :
    (l.insertNode value (dataIndex d (as.getLastD 0)) (dataIndex d e)).hdr =
      { l.hdr with nodes := l.hdr.nodes + 1 } := by
  have next : l.nextOf (dataIndex d (as.getLastD 0)) = dataIndex d (bs.headD 0) := enc.next_between
  simp only [insertNode, next, hdr_setNumberOfNodes, numberOfNodes_eq, hdr_whenSetPrev, hdr_setNext,
    hdr_setData]

theorem fresh_of_free (enc : Encodes l (as ++ bs)) (free : l.hdr.nodes + l.hdr.deleted + 1 = e) :
    e ∉ 0 :: (as ++ bs) := by
  intro mem
  have := enc.deleted
  have nodes := enc.nodes
  rcases List.mem_cons.mp mem with h | h
  · omega
  · have := enc.used e h
    omega

/-- The end of `AddNode`, where `e` is the first free node. -/
theorem linkNode_eq (enc : Encodes l (as ++ bs)) (free : l.hdr.nodes + l.hdr.deleted + 1 = e)
    (value : JSTaggedValue α) {index : Int} (atEnd : (index = -1 ∨ l.hdr.nodes = index) ↔ bs = []) :
    (l.linkNode value index (dataIndex d (as.getLastD 0))).cells =
        (l.insertNode value (dataIndex d (as.getLastD 0)) (dataIndex d e)).cells ∧
      (l.linkNode value index (dataIndex d (as.getLastD 0))).hdr =
        { l.hdr with
          nodes := l.hdr.nodes + 1
          tail := if bs = [] then dataIndex d e else l.hdr.tail } := by
  have place : elementsStartIndex + (l.numberOfNodes + 1 + l.numberOfDeletedNodes) * d.entrySize =
      dataIndex d e := by
    rw [numberOfNodes_eq, numberOfDeletedNodes_eq, dataIndex, ← free]
    congr 2
    omega
  have hdr := hdr_insertNode (e := e) enc value
  unfold linkNode
  simp only [place]
  simp only [numberOfNodes_eq, atEnd]
  split_ifs with last
  · have long : 4 ≤ (l.insertNode value (dataIndex d (as.getLastD 0)) (dataIndex d e)).length := by
      rw [length_eq, hdr]
      exact enc.fits.header
    exact ⟨cells_setTailTable _, by rw [hdr_setTailTable _ long, hdr]⟩
  · exact ⟨rfl, hdr⟩

/-- The end of `AddNode`: a new node after the nodes `as`, in the first free place. -/
theorem linkNode_spec (enc : Encodes l (as ++ bs)) (free : l.hdr.nodes + l.hdr.deleted + 1 = e)
    (fits : Fits d l.length e) (value : JSTaggedValue α) {index : Int}
    (atEnd : (index = -1 ∨ l.hdr.nodes = index) ↔ bs = []) :
    Encodes (l.linkNode value index (dataIndex d (as.getLastD 0))) (as ++ e :: bs) ∧
      (l.linkNode value index (dataIndex d (as.getLastD 0))).values (as ++ e :: bs) =
        l.values as ++ value :: l.values bs ∧
      (l.linkNode value index (dataIndex d (as.getLastD 0))).hdr.deleted = l.hdr.deleted := by
  have fresh := fresh_of_free enc free
  have cells := cells_insertNode enc fresh fits value
  obtain ⟨same, hdr⟩ := linkNode_eq enc free value atEnd
  rw [← same] at cells
  generalize l.linkNode value index (dataIndex d (as.getLastD 0)) = l' at hdr cells
  have perm := perm_node as bs e
  have distinct : (0 :: (as ++ e :: bs)).Nodup :=
    perm.symm.nodup (List.nodup_cons.mpr ⟨fresh, enc.distinct⟩)
  have length : l'.length = l.length := by rw [length_eq, hdr]; rfl
  have data : ∀ j ∈ 0 :: (as ++ bs), (l'.cells j).data = (l.cells j).data := by
    intro j hj
    have ne : j ≠ e := fun same => fresh (same ▸ hj)
    rw [(cells j).1, if_neg ne]
  have sum : l'.hdr.nodes + l'.hdr.deleted = e := by rw [hdr]; simp only; omega
  refine ⟨⟨?_, ?_, ?_, ?_, ?_, distinct, ?_, ?_, ?_⟩, ?_, ?_⟩
  · rw [hdr]
    exact enc.head
  · rw [hdr, enc.tail]
    simp only
    split_ifs with last
    · subst last
      simp
    · rw [getLastD_append, getLastD_append]
      cases bs with
      | nil => exact absurd rfl last
      | cons b bs => rfl
  · rw [hdr]
    simp only [enc.nodes, List.length_append, List.length_cons]
    omega
  · rw [hdr]
    exact enc.deleted
  · rw [sum, length]
    simpa using fits
  · intro j hj
    rw [sum]
    rcases List.mem_cons.mp (perm.subset (List.mem_cons_of_mem _ hj)) with rfl | h
    · exact Int.le_refl _
    · rcases List.mem_cons.mp h with rfl | h
      · omega
      · have := enc.used j h
        omega
  · refine enc.ring.insert ?_ enc.distinct ⟨?_, fun double => ?_⟩ ⟨?_, fun double => ?_⟩
    · intro a ha b hb notP notQ link
      have neA : a ≠ e := fun same => fresh (same ▸ ha)
      have neB : b ≠ e := fun same => fresh (same ▸ hb)
      refine ⟨?_, fun double => ?_⟩
      · rw [(cells a).2.1, if_neg neA, if_neg notP]
        exact link.1
      · rw [(cells b).2.2 double, if_neg neB, if_neg notQ]
        exact link.2 double
    · have ne : as.getLastD 0 ≠ e := fun h => fresh (h ▸ getLastD_mem_append as bs)
      rw [(cells _).2.1, if_neg ne, if_pos rfl]
    · rw [(cells _).2.2 double, if_pos rfl]
    · rw [(cells _).2.1, if_pos rfl]
    · have ne : bs.headD 0 ≠ e := fun h => fresh (h ▸ headD_mem_append as bs)
      rw [(cells _).2.2 double, if_neg ne, if_pos rfl]
  · rw [data 0 List.mem_cons_self]
    exact enc.sentinel
  · have new : (l'.cells e).data = value := by rw [(cells e).1, if_pos rfl]
    simp only [values, List.map_append, List.map_cons, new]
    congr 1
    · exact List.map_congr_left fun j hj =>
        data j (List.mem_cons_of_mem _ (List.mem_append_left _ hj))
    · congr 1
      exact List.map_congr_left fun j hj =>
        data j (List.mem_cons_of_mem _ (List.mem_append_right _ hj))
  · rw [hdr]

end Insert

/-! ## Changing values -/

section Values

variable {l l' : TaggedList d α} {es : List Nat}

/-- Only values of nodes have changed. -/
structure SameLinks (l l' : TaggedList d α) : Prop where
  hdr : l'.hdr = l.hdr
  next : ∀ j, (l'.cells j).next = (l.cells j).next
  prev : ∀ j, (l'.cells j).prev = (l.cells j).prev

theorem SameLinks.refl (l : TaggedList d α) : SameLinks l l := ⟨rfl, fun _ => rfl, fun _ => rfl⟩

theorem SameLinks.trans {l'' : TaggedList d α} (first : SameLinks l l') (second : SameLinks l' l'') :
    SameLinks l l'' :=
  ⟨second.hdr.trans first.hdr, fun j => (second.next j).trans (first.next j),
    fun j => (second.prev j).trans (first.prev j)⟩

theorem Encodes.of_sameLinks (enc : Encodes l es) (same : SameLinks l l')
    (sentinel : (l'.cells 0).data = .hole) : Encodes l' es := by
  have length : l'.length = l.length := by rw [length_eq, same.hdr]; rfl
  refine ⟨?_, ?_, ?_, ?_, ?_, enc.distinct, ?_, ?_, sentinel⟩
  · rw [same.hdr]; exact enc.head
  · rw [same.hdr]; exact enc.tail
  · rw [same.hdr]; exact enc.nodes
  · rw [same.hdr]; exact enc.deleted
  · rw [same.hdr, length]; exact enc.fits
  · rw [same.hdr]; exact enc.used
  · apply isChain_of_agree enc.ring
    intro a _ b _ link
    exact ⟨(same.next a).trans link.1, fun double => (same.prev b).trans (link.2 double)⟩

theorem sameLinks_setData (v : JSTaggedValue α) {e : Nat} (fits : Fits d l.length e) :
    SameLinks l (l.setElement (dataIndex d e) v) := by
  refine ⟨hdr_setData v e, fun j => ?_, fun j => ?_⟩
  · rw [cells_setData v fits, Function.update_apply]
    split_ifs with same
    · rw [same]
    · rfl
  · rw [cells_setData v fits, Function.update_apply]
    split_ifs with same
    · rw [same]
    · rfl

/-- Another value for the `i`-th node. -/
theorem setData_spec (enc : Encodes l es) {i : Nat} (below : i < es.length) (v : JSTaggedValue α) :
    Encodes (l.setElement (dataIndex d (ringNode 0 es (i + 1))) v) es ∧
      (l.setElement (dataIndex d (ringNode 0 es (i + 1))) v).values es = (l.values es).set i v := by
  have mem : es[i] ∈ es := List.getElem_mem below
  have fits := enc.fits_node (List.mem_cons_of_mem 0 mem)
  have notZero : (0 : Nat) ≠ es[i] := fun h => (List.nodup_cons.mp enc.distinct).1 (h ▸ mem)
  rw [ringNode_succ below]
  refine ⟨enc.of_sameLinks (sameLinks_setData v fits) ?_, ?_⟩
  · rw [cells_setData v fits, Function.update_of_ne notZero]
    exact enc.sentinel
  · have nodup := (List.nodup_cons.mp enc.distinct).2
    apply List.ext_getElem (by simp)
    intro k h1 h2
    simp only [values, List.getElem_map, List.getElem_set, cells_setData v fits,
      Function.update_apply]
    have inside : k < es.length := by simpa using h1
    have inj : es[k] = es[i] ↔ i = k := by
      rw [nodup.getElem_inj_iff]
      exact eq_comm
    simp only [inj]
    split_ifs <;> rfl

end Values

/-! ## At a place of the ring -/

section Place

variable {l : TaggedList d α} {es : List Nat}

/-- `linkNode` at a place of the ring. -/
theorem link_encodes (enc : Encodes l es) {i : Nat} (le : i ≤ es.length) {e : Nat}
    (free : l.hdr.nodes + l.hdr.deleted + 1 = e) (fits : Fits d l.length e) (value : JSTaggedValue α)
    {index : Int} (place : index = -1 ∧ i = es.length ∨ index = i) :
    Encodes (l.linkNode value index (dataIndex d (ringNode 0 es i))) (es.take i ++ e :: es.drop i) ∧
      (l.linkNode value index (dataIndex d (ringNode 0 es i))).values (es.take i ++ e :: es.drop i) =
        (l.values es).insertIdx i value ∧
      (l.linkNode value index (dataIndex d (ringNode 0 es i))).hdr.deleted = l.hdr.deleted := by
  have split := List.take_append_drop i es
  have prev : ringNode 0 es i = (es.take i).getLastD 0 := by
    have := @ringNode_append_left _ 0 (es.take i) (es.drop i)
    rwa [split, List.length_take, Nat.min_eq_left le] at this
  have atEnd : (index = -1 ∨ l.hdr.nodes = index) ↔ es.drop i = [] := by
    rw [enc.nodes, List.drop_eq_nil_iff]
    omega
  rw [← split] at enc
  obtain ⟨enc', values, deleted⟩ := linkNode_spec enc free fits value atEnd
  rw [prev]
  refine ⟨enc', ?_, deleted⟩
  rw [values, insertIdx_eq_append (by simpa using le)]
  simp [TaggedList.values, List.map_take, List.map_drop]

/-- `RemoveNode` at a place of the ring. -/
theorem remove_encodes (enc : Encodes l es) {i : Nat} (below : i < es.length) :
    Encodes (l.removeNode (dataIndex d (ringNode 0 es i))) (es.eraseIdx i) ∧
      (l.removeNode (dataIndex d (ringNode 0 es i))).values (es.eraseIdx i) =
        (l.values es).eraseIdx i := by
  have split : es.take i ++ es[i] :: es.drop (i + 1) = es := by
    rw [List.getElem_cons_drop, List.take_append_drop]
  have prev : ringNode 0 es i = (es.take i).getLastD 0 := by
    have := @ringNode_append_left _ 0 (es.take i) (es[i] :: es.drop (i + 1))
    rwa [split, List.length_take, Nat.min_eq_left (Nat.le_of_lt below)] at this
  have erase : es.eraseIdx i = es.take i ++ es.drop (i + 1) := List.eraseIdx_eq_take_drop_succ es i
  rw [prev, erase]
  rw [← split] at enc
  obtain ⟨enc', values⟩ := removeNode_spec enc
  refine ⟨enc', ?_⟩
  rw [values, List.eraseIdx_eq_take_drop_succ]
  simp [TaggedList.values, List.map_take, List.map_drop]

/-- `RemoveNode` of an empty list does nothing. -/
theorem removeNode_empty (enc : Encodes l []) (i : Int) : l.removeNode i = l := by
  have same : l.tailTable = l.headTable := by
    rw [tailTable_eq, headTable_eq, enc.tail, enc.head]
    exact dataIndex_zero
  unfold removeNode
  simp only [same, ne_eq, not_true_eq_false, if_false]

end Place

end TaggedList

end ArkRuntime
