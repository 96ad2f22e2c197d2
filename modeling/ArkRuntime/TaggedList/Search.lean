import ArkRuntime.TaggedList.View
import ArkRuntime.Misc.Ring

/-!
# The ring of nodes, and searching it

`Encodes l es` says that the nodes of `l`, in link order, are `es`: the next links (and the prev
links of a double list) go once round the ring from the sentinel, the tail slot names the last node,
and the nodes lie below the first free one. The searches of the source walk along the ring; each of
them is determined by the sequence of values.
-/

namespace ArkRuntime

namespace TaggedList

variable {d : ListDerived} {α : Type}

/-- Node `a` links to node `b`; in a double list `b` also links back. -/
def Linked (l : TaggedList d α) (a b : Nat) : Prop :=
  (l.cells a).next = dataIndex d b ∧ (d = .double → (l.cells b).prev = dataIndex d a)

structure Encodes (l : TaggedList d α) (es : List Nat) : Prop where
  head : l.hdr.head = elementsStartIndex
  tail : l.hdr.tail = dataIndex d (es.getLastD 0)
  nodes : l.hdr.nodes = es.length
  deleted : 0 ≤ l.hdr.deleted
  fits : Fits d l.length (l.hdr.nodes + l.hdr.deleted).toNat
  distinct : (0 :: es).Nodup
  used : ∀ e ∈ es, (e : Int) ≤ l.hdr.nodes + l.hdr.deleted
  ring : Ring l.Linked 0 es
  sentinel : (l.cells 0).data = .hole

/-- The values of the nodes `es`. -/
def values (l : TaggedList d α) (es : List Nat) : List (JSTaggedValue α) :=
  es.map fun e => (l.cells e).data

@[simp] theorem length_values (l : TaggedList d α) (es : List Nat) :
    (l.values es).length = es.length :=
  List.length_map _

variable {i k : Nat}

section Walk

variable {l : TaggedList d α} {es : List Nat}

theorem Encodes.fits_node (enc : Encodes l es) {e : Nat} (mem : e ∈ 0 :: es) : Fits d l.length e := by
  apply enc.fits.mono
  rcases List.mem_cons.mp mem with rfl | mem
  · exact Nat.zero_le _
  · have := enc.used e mem
    omega

theorem Encodes.lt_fuel (enc : Encodes l es) : es.length + 3 < l.fuel := by
  have := enc.fits.lt_fuel
  have nodes := enc.nodes
  have deleted := enc.deleted
  omega

theorem Encodes.nextOf (enc : Encodes l es) (le : i ≤ es.length) :
    l.nextOf (dataIndex d (ringNode 0 es i)) = dataIndex d (ringNode 0 es (i + 1)) :=
  (ring_iff.mp enc.ring i le).1

theorem Encodes.prevOf {l : TaggedDoubleList α} (enc : Encodes l es) (le : i ≤ es.length) :
    l.prevOf (dataIndex .double (ringNode 0 es (i + 1))) = dataIndex .double (ringNode 0 es i) :=
  (ring_iff.mp enc.ring i le).2 rfl

theorem Encodes.nextOf_start (enc : Encodes l es) :
    l.nextOf elementsStartIndex = dataIndex d (ringNode 0 es 1) := by
  have first := enc.nextOf (i := 0) (Nat.zero_le _)
  rwa [ringNode_zero, dataIndex_zero] at first

theorem Encodes.prevOf_start {l : TaggedDoubleList α} (enc : Encodes l es) :
    l.prevOf elementsStartIndex = dataIndex .double (ringNode 0 es es.length) := by
  have back := enc.prevOf (Nat.le_refl es.length)
  rwa [ringNode_end (Nat.le_refl _), dataIndex_zero] at back

/-- The walk is back at the sentinel after the last node. -/
theorem Encodes.ne_start (enc : Encodes l es) (below : i < es.length) :
    dataIndex d (ringNode 0 es (i + 1)) ≠ elementsStartIndex := by
  rw [ne_eq, dataIndex_eq_start, ringNode_succ below]
  intro zero
  have mem : es[i] ∈ es := List.getElem_mem below
  rw [zero] at mem
  exact (List.nodup_cons.mp enc.distinct).1 mem

theorem end_eq_start : dataIndex d (ringNode 0 es (es.length + 1)) = elementsStartIndex := by
  rw [ringNode_end (Nat.le_refl _), dataIndex_zero]

theorem start_eq_node (d : ListDerived) (es : List Nat) :
    elementsStartIndex = dataIndex d (ringNode 0 es 0) := by
  rw [ringNode_zero, dataIndex_zero]

theorem getElement_node (l : TaggedList d α) (es : List Nat) (below : i < (l.values es).length) :
    l.getElement (dataIndex d (ringNode 0 es (i + 1))) = (l.values es)[i] := by
  have inside : i < es.length := by simpa using below
  simp [values, ringNode_succ inside, getElement_dataIndex]

end Walk

/-! ## Looking for an index -/

section ByIndex

variable {l : TaggedList d α} {es : List Nat}

theorem findElementByIndex_eq (enc : Encodes l es) (index : Int) :
    l.findElementByIndex index =
      some (if 0 ≤ index then (l.values es).getD index.toNat .undefined else .undefined) := by
  have enough := enc.lt_fuel
  unfold findElementByIndex
  rw [enc.nextOf_start]
  by_cases inside : 0 ≤ index ∧ index < es.length
  · have below : index.toNat < (l.values es).length := by rw [length_values]; omega
    apply iter_walk (s := fun k => (dataIndex d (ringNode 0 es (k + 1)), (k : Int))) (m := index.toNat)
    · intro k hk
      simp only [enc.ne_start (i := k) (by omega), if_false, enc.nextOf (i := k + 1) (by omega)]
      rw [if_neg (by omega)]
      rfl
    · simp only [enc.ne_start (i := index.toNat) (by omega), if_false]
      rw [if_pos (by omega), getElement_node l es below, if_pos inside.1, List.getD_eq_getElem _ _ below]
    · omega
  · have outside : (if 0 ≤ index then (l.values es).getD index.toNat .undefined else .undefined) =
        (.undefined : JSTaggedValue α) := by
      split_ifs with nonneg
      · exact List.getD_eq_default _ _ (by rw [length_values]; omega)
      · rfl
    rw [outside]
    apply iter_walk (s := fun k => (dataIndex d (ringNode 0 es (k + 1)), (k : Int))) (m := es.length)
    · intro k hk
      simp only [enc.ne_start hk, if_false, enc.nextOf (i := k + 1) (by omega)]
      rw [if_neg (by omega)]
      rfl
    · simp only [end_eq_start, if_true]
    · omega

theorem findDataIndexByNodeIndex_eq (enc : Encodes l es) (below : i < es.length) :
    l.findDataIndexByNodeIndex i = some (dataIndex d (ringNode 0 es (i + 1))) := by
  have enough := enc.lt_fuel
  unfold findDataIndexByNodeIndex
  rw [enc.nextOf_start]
  apply iter_walk (s := fun k => (dataIndex d (ringNode 0 es (k + 1)), (k : Int))) (m := i)
  · intro k hk
    simp only [enc.ne_start (i := k) (by omega), if_false, enc.nextOf (i := k + 1) (by omega)]
    rw [if_neg (by omega)]
    rfl
  · simp only [enc.ne_start below, if_false, if_true]
  · omega

theorem findPrevNodeByIndex_eq (enc : Encodes l es) (le : i ≤ es.length) :
    l.findPrevNodeByIndex i = some (dataIndex d (ringNode 0 es i)) := by
  have enough := enc.lt_fuel
  have nodes := enc.nodes
  unfold findPrevNodeByIndex
  rw [numberOfNodes_eq, nodes, start_eq_node d es]
  apply iter_walk (s := fun k => (dataIndex d (ringNode 0 es k), (k : Int))) (m := i)
  · intro k hk
    have inside : (k : Int) ≤ es.length := by omega
    simp only [inside, if_true, enc.nextOf (i := k) (by omega)]
    rw [if_neg (by omega)]
    rfl
  · have inside : (i : Int) ≤ es.length := by omega
    simp only [inside, if_true]
  · omega

end ByIndex

/-! ## Looking for a value -/

section ByValue

variable {l : TaggedList d α} {es : List Nat} (sv : SameValue α) (element : JSTaggedValue α)

/-- The first value that is the same value as `element`; the number of values if there is none. -/
def firstSame (vs : List (JSTaggedValue α)) : Nat := vs.findIdx fun v => sv.same v element

theorem firstSame_le (vs : List (JSTaggedValue α)) : firstSame sv element vs ≤ vs.length :=
  List.findIdx_le_length

theorem not_same_of_lt {vs : List (JSTaggedValue α)} (inside : k < vs.length)
    (before : k < firstSame sv element vs) : sv.same vs[k] element = false := by
  have := List.not_of_lt_findIdx before
  simpa using this

theorem same_firstSame (vs : List (JSTaggedValue α)) (found : firstSame sv element vs < vs.length) :
    sv.same vs[firstSame sv element vs] element = true :=
  List.findIdx_getElem (w := found)

theorem findIndexByElement_eq (enc : Encodes l es) :
    l.findIndexByElement sv element =
      some (if firstSame sv element (l.values es) < es.length then
        (firstSame sv element (l.values es) : Int) else -1) := by
  have enough := enc.lt_fuel
  have size := length_values l es
  have le := firstSame_le sv element (l.values es)
  unfold findIndexByElement
  rw [enc.nextOf_start]
  apply iter_walk (s := fun k => (dataIndex d (ringNode 0 es (k + 1)), (k : Int)))
    (m := firstSame sv element (l.values es))
  · intro k hk
    have other := not_same_of_lt sv element (by omega) hk
    simp only [enc.ne_start (i := k) (by omega), if_false, enc.nextOf (i := k + 1) (by omega),
      getElement_node l es (i := k) (by omega), other, Bool.false_eq_true]
    rfl
  · by_cases found : firstSame sv element (l.values es) < es.length
    · have same := same_firstSame sv element (l.values es) (by omega)
      simp only [enc.ne_start found, if_false, getElement_node l es (size ▸ found),
        same, if_true, found]
    · have last : firstSame sv element (l.values es) = es.length := by omega
      simp only [last, end_eq_start, if_true, Nat.lt_irrefl, if_false]
  · omega

/-- The node before the first one with the value; for this search the sentinel has a value too. -/
theorem findPrevNodeByValue_eq (enc : Encodes l es) (notHole : element ≠ .hole) :
    l.findPrevNodeByValue sv element =
      some (if firstSame sv element (l.values es) < es.length then
        dataIndex d (ringNode 0 es (firstSame sv element (l.values es))) else -1) := by
  have enough := enc.lt_fuel
  have size := length_values l es
  have le := firstSame_le sv element (l.values es)
  have nodes := enc.nodes
  unfold findPrevNodeByValue
  rw [numberOfNodes_eq, nodes, start_eq_node d es]
  have pass : ∀ k, k < firstSame sv element (l.values es) → k < es.length →
      sv.same (l.getElement (dataIndex d (ringNode 0 es (k + 1)))) element = false := by
    intro k before inside
    rw [getElement_node l es (size ▸ inside)]
    exact not_same_of_lt sv element _ before
  by_cases found : firstSame sv element (l.values es) < es.length
  · apply iter_walk (s := fun k => (dataIndex d (ringNode 0 es k), (k : Int)))
      (m := firstSame sv element (l.values es))
    · intro k hk
      have inside : (k : Int) ≤ es.length := by omega
      simp only [inside, if_true, enc.nextOf (i := k) (by omega), pass k hk (by omega),
        Bool.false_eq_true, if_false]
      rfl
    · have inside : (firstSame sv element (l.values es) : Int) ≤ es.length := by omega
      have same := same_firstSame sv element (l.values es) (by omega)
      simp only [inside, if_true, enc.nextOf (Nat.le_of_lt found),
        getElement_node l es (size ▸ found), same, found]
    · omega
  · rw [if_neg found]
    have holeOther : sv.same .hole element = false := by
      cases same : sv.same .hole element with
      | false => rfl
      | true => exact absurd (sv.hole element same) notHole
    apply iter_walk (s := fun k => (dataIndex d (ringNode 0 es k), (k : Int))) (m := es.length + 1)
    · intro k hk
      have inside : (k : Int) ≤ es.length := by omega
      have other : sv.same (l.getElement (dataIndex d (ringNode 0 es (k + 1)))) element = false := by
        rcases Nat.lt_or_ge k es.length with low | high
        · exact pass k (by omega) low
        · rw [ringNode_end high, getElement_dataIndex, enc.sentinel]
          exact holeOther
      simp only [inside, if_true, enc.nextOf (i := k) (by omega), other, Bool.false_eq_true, if_false]
      rfl
    · simp only
      rw [if_neg (by omega)]
    · omega

/-- The last value that is the same value as `element`, or `-1`. -/
def lastSame (vs : List (JSTaggedValue α)) : Int :=
  vs.length - 1 - firstSame sv element vs.reverse

theorem lastSame_concat (vs : List (JSTaggedValue α)) (v : JSTaggedValue α) :
    lastSame sv element (vs ++ [v]) =
      if sv.same v element then (vs.length : Int) else lastSame sv element vs := by
  simp only [lastSame, firstSame, List.reverse_append, List.reverse_cons, List.reverse_nil,
    List.nil_append, List.cons_append, List.findIdx_cons, List.length_append, List.length_cons,
    List.length_nil]
  cases sv.same v element <;> simp only [cond_true, cond_false, if_true, Bool.false_eq_true, if_false]
    <;> omega

theorem findLastIndexByElement_eq (enc : Encodes l es) :
    l.findLastIndexByElement sv element = some (lastSame sv element (l.values es)) := by
  have enough := enc.lt_fuel
  have size := length_values l es
  unfold findLastIndexByElement
  rw [enc.nextOf_start]
  apply iter_walk (s := fun k => (dataIndex d (ringNode 0 es (k + 1)), (k : Int),
    lastSame sv element ((l.values es).take k))) (m := es.length)
  · intro k hk
    have inside : k < (l.values es).length := by omega
    simp only [enc.ne_start hk, if_false, enc.nextOf (i := k + 1) (by omega),
      getElement_node l es inside]
    rw [List.take_succ_eq_append_getElem inside, lastSame_concat, List.length_take,
      Nat.min_eq_left (Nat.le_of_lt inside)]
    rfl
  · have all : (l.values es).take es.length = l.values es := by rw [← size, List.take_length]
    simp only [end_eq_start, if_true, all]
  · omega

end ByValue

/-! ## Searching a double list from its end -/

section AtLast

open TaggedDoubleList

variable {l : TaggedDoubleList α} {es : List Nat}

/-- The node after `k` steps back from the sentinel's previous node. -/
theorem Encodes.prevOf_back (enc : Encodes l es) (below : k < es.length) :
    l.prevOf (dataIndex .double (ringNode 0 es (es.length - k))) =
      dataIndex .double (ringNode 0 es (es.length - (k + 1))) := by
  have back := enc.prevOf (i := es.length - (k + 1)) (by omega)
  rwa [show es.length - (k + 1) + 1 = es.length - k by omega] at back

theorem Encodes.ne_start_back (enc : Encodes l es) (below : k < es.length) :
    dataIndex .double (ringNode 0 es (es.length - k)) ≠ elementsStartIndex := by
  have ne := enc.ne_start (i := es.length - (k + 1)) (by omega)
  rwa [show es.length - (k + 1) + 1 = es.length - k by omega] at ne

theorem getElement_back (l : TaggedDoubleList α) (es : List Nat) (below : k < (l.values es).reverse.length) :
    l.getElement (dataIndex .double (ringNode 0 es (es.length - k))) = (l.values es).reverse[k] := by
  have size := length_values l es
  rw [List.length_reverse] at below
  have read := getElement_node l es (i := es.length - (k + 1)) (by omega)
  rw [show es.length - (k + 1) + 1 = es.length - k by omega] at read
  rw [read, List.getElem_reverse]
  congr 1
  omega

theorem findElementByIndexAtLast_eq (enc : Encodes l es) (index : Int) (nonneg : 0 ≤ index) :
    findElementByIndexAtLast l index = some ((l.values es).getD index.toNat .undefined) := by
  have enough := enc.lt_fuel
  have size := length_values l es
  unfold findElementByIndexAtLast
  rw [enc.prevOf_start, numberOfNodes_eq, enc.nodes]
  rw [show (es.length : Int) - 1 = es.length - 1 - (0 : Nat) by simp]
  by_cases inside : index < es.length
  · apply iter_walk (s := fun k => (dataIndex .double (ringNode 0 es (es.length - k)),
      (es.length : Int) - 1 - k)) (m := es.length - 1 - index.toNat)
    · intro k hk
      simp only [enc.ne_start_back (k := k) (by omega), if_false, enc.prevOf_back (k := k) (by omega)]
      rw [if_neg (by omega), Int.sub_sub]
      rfl
    · simp only [enc.ne_start_back (k := es.length - 1 - index.toNat) (by omega), if_false]
      rw [if_pos (by omega), show es.length - (es.length - 1 - index.toNat) = index.toNat + 1 by omega,
        getElement_node l es (by omega), List.getD_eq_getElem _ _ (by omega)]
    · omega
  · rw [List.getD_eq_default _ _ (by omega)]
    apply iter_walk (s := fun k => (dataIndex .double (ringNode 0 es (es.length - k)),
      (es.length : Int) - 1 - k)) (m := es.length)
    · intro k hk
      simp only [enc.ne_start_back hk, if_false, enc.prevOf_back hk]
      rw [if_neg (by omega), Int.sub_sub]
      rfl
    · simp only [Nat.sub_self, ringNode_zero, dataIndex_zero, if_true]
    · omega

theorem findPrevNodeByIndexAtLast_eq (enc : Encodes l es) (below : i < es.length) :
    findPrevNodeByIndexAtLast l (es.length - 1 - i : Int) = some (dataIndex .double (ringNode 0 es i)) := by
  have enough := enc.lt_fuel
  unfold findPrevNodeByIndexAtLast
  rw [enc.prevOf_start, numberOfNodes_eq, enc.nodes]
  apply iter_walk (s := fun k => (dataIndex .double (ringNode 0 es (es.length - k)), (k : Int)))
    (m := es.length - 1 - i)
  · intro k hk
    have inside : (k : Int) ≤ es.length := by omega
    simp only [inside, if_true, enc.prevOf_back (k := k) (by omega)]
    rw [if_neg (by omega)]
    rfl
  · have inside : ((es.length - 1 - i : Nat) : Int) ≤ es.length := by omega
    simp only [inside, if_true, enc.prevOf_back (k := es.length - 1 - i) (by omega)]
    rw [if_pos (by omega), show es.length - (es.length - 1 - i + 1) = i by omega]
  · omega

theorem findPrevNodeByValueAtLast_eq (enc : Encodes l es) (sv : SameValue α)
    (element : JSTaggedValue α) (notHole : element ≠ .hole) :
    findPrevNodeByValueAtLast sv l element =
      some (if firstSame sv element (l.values es).reverse < es.length then
        dataIndex .double (ringNode 0 es
          (es.length - (firstSame sv element (l.values es).reverse + 1))) else -1) := by
  have enough := enc.lt_fuel
  have size : (l.values es).reverse.length = es.length := by simp
  have le := firstSame_le sv element (l.values es).reverse
  unfold findPrevNodeByValueAtLast
  rw [enc.prevOf_start, numberOfNodes_eq, enc.nodes]
  have pass : ∀ k, k < firstSame sv element (l.values es).reverse → k < es.length →
      sv.same (l.getElement (dataIndex .double (ringNode 0 es (es.length - k)))) element = false := by
    intro k before inside
    rw [getElement_back l es (size ▸ inside)]
    exact not_same_of_lt sv element _ before
  by_cases found : firstSame sv element (l.values es).reverse < es.length
  · apply iter_walk (s := fun k => (dataIndex .double (ringNode 0 es (es.length - k)), (k : Int)))
      (m := firstSame sv element (l.values es).reverse)
    · intro k hk
      have inside : (k : Int) ≤ es.length := by omega
      simp only [inside, if_true, enc.prevOf_back (k := k) (by omega), pass k hk (by omega),
        Bool.false_eq_true, if_false]
      rfl
    · have inside : (firstSame sv element (l.values es).reverse : Int) ≤ es.length := by omega
      have same := same_firstSame sv element (l.values es).reverse (by omega)
      simp only [inside, if_true, enc.prevOf_back found, getElement_back l es (size ▸ found), same, found]
    · omega
  · rw [if_neg found]
    have holeOther : sv.same .hole element = false := by
      cases same : sv.same .hole element with
      | false => rfl
      | true => exact absurd (sv.hole element same) notHole
    -- the last round looks at the sentinel and steps back to the last node
    apply iter_walk (s := fun k => (dataIndex .double
      (ringNode 0 es (if k ≤ es.length then es.length - k else es.length)), (k : Int)))
      (m := es.length + 1)
    · intro k hk
      have inside : (k : Int) ≤ es.length := by omega
      have le' : k ≤ es.length := by omega
      rcases Nat.lt_or_ge k es.length with low | high
      · have next : k + 1 ≤ es.length := low
        simp only [inside, le', next, if_true, enc.prevOf_back low, pass k (by omega) low,
          Bool.false_eq_true, if_false]
        rfl
      · have last : k = es.length := by omega
        subst last
        have past : ¬ es.length + 1 ≤ es.length := by omega
        have sentinel : l.getElement (dataIndex .double 0) = .hole := enc.sentinel
        have back : l.prevOf (dataIndex .double 0) = dataIndex .double (ringNode 0 es es.length) := by
          rw [dataIndex_zero, enc.prevOf_start]
        simp only [inside, le', past, if_true, if_false, Nat.sub_self, ringNode_zero, sentinel, back,
          holeOther, Bool.false_eq_true]
        rfl
    · simp only
      rw [if_neg (by omega)]
    · omega

/-- `GetPrevNode` finds the same node from either end. -/
theorem getPrevNode_eq (enc : Encodes l es) (le : i ≤ es.length) :
    getPrevNode l i = some (dataIndex .double (ringNode 0 es i)) := by
  unfold getPrevNode
  rw [numberOfNodes_eq, enc.nodes]
  simp only
  split_ifs with low last
  · exact findPrevNodeByIndex_eq enc le
  · have whole : i = es.length := by omega
    subst whole
    rw [tailTable_eq, enc.tail, ringNode_length]
  · exact findPrevNodeByIndexAtLast_eq enc (by omega)

/-- `Get` reads the same value from either end. -/
theorem doubleGet_eq (enc : Encodes l es) (index : Int) :
    TaggedDoubleList.get l index =
      some (if 0 ≤ index then (l.values es).getD index.toNat .undefined else .undefined) := by
  unfold TaggedDoubleList.get
  simp only
  by_cases low : l.numberOfNodes / 2 > index
  · rw [if_pos low, findElementByIndex_eq enc]
  · have nonneg : 0 ≤ index := by
      have := enc.nodes
      rw [numberOfNodes_eq] at low
      omega
    rw [if_neg low, findElementByIndexAtLast_eq enc index nonneg, if_pos nonneg]

end AtLast

end TaggedList

end ArkRuntime
