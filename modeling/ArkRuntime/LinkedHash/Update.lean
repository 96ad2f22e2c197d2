import ArkRuntime.LinkedHash.Search

/-!
# Entries written and removed

What `Create`, `SetValue`, `RemoveEntry` and the last part of `Insert` do to the list of slots that a
table stands for.
-/

namespace ArkRuntime

namespace LinkedHash

variable {d : HashDerived} {α : Type} {rt : HashRuntime α} {t : LinkedHashTable d α}
  {slots : List (Slot α)}

open LinkedHashTable

/-- The content of an entry whose value was set; in a set that is its key. -/
def withValue (d : HashDerived) (key value : JSTaggedValue α) : JSTaggedValue α × JSTaggedValue α :=
  match d with
  | .map => (key, value)
  | .set => (value, value)

variable {e : Nat} {key value : JSTaggedValue α}

theorem split_slot {s : Slot α} (here : slots[e]? = some s) :
    ∃ as bs, slots = as ++ s :: bs ∧ as.length = e ∧ ∀ s', slots.set e s' = as ++ s' :: bs := by
  obtain ⟨below, same⟩ := List.getElem?_eq_some_iff.mp here
  have parts : slots = slots.take e ++ s :: slots.drop (e + 1) := by
    rw [← same, List.getElem_cons_drop, List.take_append_drop]
  have length : (slots.take e).length = e := by
    rw [List.length_take]
    omega
  refine ⟨slots.take e, slots.drop (e + 1), parts, length, fun s' => ?_⟩
  exact List.set_eq_take_append_cons_drop.trans (if_pos below)

theorem reduceOption_slot (as bs : List (Slot α)) (p : JSTaggedValue α × JSTaggedValue α) :
    (as ++ some p :: bs).reduceOption = as.reduceOption ++ p :: bs.reduceOption := by
  rw [List.reduceOption_append, List.reduceOption_cons_of_some]

theorem reduceOption_removed (as bs : List (Slot α)) :
    (as ++ none :: bs).reduceOption = as.reduceOption ++ bs.reduceOption := by
  rw [List.reduceOption_append, List.reduceOption_cons_of_none]

theorem create_encodes {n : Nat} (room : 0 < n) :
    Encodes rt (create d n : LinkedHashTable d α) [] := by
  have view := view_create (d := d) (α := α) n
  refine ⟨?_, rfl, rfl, List.Pairwise.nil, rfl, by simp⟩
  rw [view]
  exact Filled.nil (by simpa using room) fun _ => rfl

/-! ## Writing to an entry -/

theorem view_setValue (room : 0 ≤ t.capacity) (e : Nat) (v : JSTaggedValue α) :
    (t.setValue e v).view =
      { t.view with
        key := if d = .set then Function.update t.view.key e v else t.view.key
        value := Function.update t.view.value e v } := by
  rw [setValue_eq, view_setEntry room (valueOffset_lt d).le]
  cases d <;> simp [valueOffset, HashDerived.entrySize]

/-- A new value for an entry. -/
theorem setValue_encodes {k x v : JSTaggedValue α} (enc : Encodes rt t slots)
    (here : slots[e]? = some (some (k, x))) (sets : d = .set → v ≠ .hole ∧ rt.sameValueZero v k = true) :
    Encodes rt (t.setValue e v) (slots.set e (some (withValue d k v))) := by
  have view := view_setValue enc.nonneg e v
  have elements : (t.setValue e v).numberOfElements = t.numberOfElements := congrArg (·.elements) view
  have deleted : (t.setValue e v).numberOfDeletedElements = t.numberOfDeletedElements :=
    congrArg (·.deleted) view
  obtain ⟨as, bs, rfl, -, set⟩ := split_slot here
  have live := enc.filled.holds.live here
  have sameKey : rt.sameValueZero (withValue d k v).1 k = true := by
    cases d with
    | map => exact rt.refl k
    | set => exact (sets rfl).2
  have isKey : (withValue d k v).1 ≠ .hole := by
    cases d with
    | map => exact live.2.2
    | set => exact (sets rfl).1
  refine ⟨?_, ?_, ?_, ?_, enc.current, ?_⟩
  · have filled := enc.filled.set (e := e) (s := some (withValue d k v)) (k := (withValue d k v).1)
      (x := (withValue d k v).2) (.inl ⟨rfl, isKey⟩) (fun k' x' _ before => ?_) fun _ => ⟨k, x, here⟩
    · rw [view]
      refine filled.congr rfl rfl ?_ ?_ rfl
      · cases d with
        | map =>
          simp only [withValue, reduceCtorEq, if_false]
          rw [← live.1, Function.update_eq_self]
        | set => rfl
      · cases d <;> rfl
    · rw [here] at before
      simp only [Option.some.injEq, Prod.mk.injEq] at before
      rw [← before.1]
      exact rt.hash_eq _ _ sameKey
  · rw [elements, enc.elements, set, reduceOption_slot, reduceOption_slot]
    simp
  · rw [deleted, enc.deleted, set, reduceOption_slot, reduceOption_slot]
    simp
  · have distinct := enc.distinct
    rw [set]
    unfold DistinctKeys at distinct ⊢
    rw [reduceOption_slot] at distinct ⊢
    have other (y : JSTaggedValue α) (apart : rt.sameValueZero k y = false) :
        rt.sameValueZero (withValue d k v).1 y = false := by
      by_contra same
      rw [rt.trans _ _ _ (rt.symm _ _ sameKey) (by simpa using same)] at apart
      cases apart
    have other' (y : JSTaggedValue α) (apart : rt.sameValueZero y k = false) :
        rt.sameValueZero y (withValue d k v).1 = false := by
      by_contra same
      rw [rt.trans _ _ _ (by simpa using same) sameKey] at apart
      cases apart
    simp only [List.pairwise_append, List.pairwise_cons, List.mem_cons, forall_eq_or_imp] at distinct ⊢
    refine ⟨distinct.1, ⟨fun y hy => other _ (distinct.2.1.1 y hy), distinct.2.1.2⟩, fun y hy => ?_⟩
    exact ⟨other' _ (distinct.2.2 y hy).1, (distinct.2.2 y hy).2⟩
  · intro isSet p live'
    subst isSet
    rw [set, reduceOption_slot, List.mem_append, List.mem_cons] at live'
    rcases live' with before | rfl | after
    · apply enc.sets rfl
      rw [reduceOption_slot]
      exact List.mem_append_left _ before
    · rfl
    · apply enc.sets rfl
      rw [reduceOption_slot]
      exact List.mem_append_right _ (List.mem_cons_of_mem _ after)

/-- A whole entry is written, its key and in a map its value. -/
theorem view_putEntry (room : 0 ≤ t.capacity) (e : Nat) (content : Nat → JSTaggedValue α) :
    (forLoop (fun j (t' : LinkedHashTable d α) => t'.setElement (t.entryToIndex e + j) (content j))
        d.entrySize t).view =
      { t.view with
        key := Function.update t.view.key e (content 0)
        value := Function.update t.view.value e (content (valueOffset d)) } := by
  have first := view_setEntry (t := t) (i := 0) room (Nat.zero_le _) e (content 0)
  cases d with
  | set => simpa [HashDerived.entrySize, forLoop, valueOffset] using first
  | map =>
    have capacity : (t.setElement (t.entryToIndex e + (0 : Nat)) (content 0)).capacity = t.capacity :=
      congrArg (·.capacity) first
    have second := view_setEntry (t := t.setElement (t.entryToIndex e + (0 : Nat)) (content 0))
      (i := 1) (by rw [capacity]; exact room) (by simp [HashDerived.entrySize]) e (content 1)
    rw [entryToIndex_congr capacity, first] at second
    simpa [HashDerived.entrySize, forLoop, valueOffset] using second

/-- A table and its next table are not changed by a write to the array. -/
theorem nextTable_putEntry (t : LinkedHashTable d α) (index : Int) (n : Nat)
    (content : Nat → JSTaggedValue α) :
    (forLoop (fun j (t' : LinkedHashTable d α) => t'.setElement (index + j) (content j)) n
      t).nextTable = t.nextTable := by
  induction n with
  | zero => rfl
  | succ n ih => exact ih

/-- An entry is removed: its place stays, in its chain too. -/
theorem removeEntry_encodes {p : JSTaggedValue α × JSTaggedValue α} (enc : Encodes rt t slots)
    (here : slots[e]? = some (some p)) : Encodes rt (t.removeEntry e) (slots.set e none) := by
  have hole := view_putEntry enc.nonneg e fun _ => .hole
  have next := nextTable_putEntry t (t.entryToIndex e) d.entrySize fun _ => .hole
  simp only [removeEntry]
  generalize forLoop (fun j (t' : LinkedHashTable d α) =>
    t'.setElement (t.entryToIndex e + j) .hole) d.entrySize t = t' at hole next
  have room : 0 ≤ t'.capacity := by
    have same : t'.capacity = t.capacity := congrArg (·.capacity) hole
    rw [same]
    exact enc.nonneg
  have nof : t'.numberOfElements = t.numberOfElements := congrArg (·.elements) hole
  have nod : t'.numberOfDeletedElements = t.numberOfDeletedElements := congrArg (·.deleted) hole
  have view1 := view_setNumberOfElements room (t'.numberOfElements - 1)
  have nod1 : (t'.setNumberOfElements (t'.numberOfElements - 1)).numberOfDeletedElements =
      t'.numberOfDeletedElements := congrArg (·.deleted) view1
  have room1 : 0 ≤ (t'.setNumberOfElements (t'.numberOfElements - 1)).capacity := by
    have same : (t'.setNumberOfElements (t'.numberOfElements - 1)).capacity = t'.capacity :=
      congrArg (·.capacity) view1
    rw [same]
    exact room
  have view2 := view_setNumberOfDeletedElements room1 (t'.numberOfDeletedElements + 1)
  simp only [nod1]
  rw [view1, hole] at view2
  obtain ⟨as, bs, rfl, -, set⟩ := split_slot here
  refine ⟨?_, ?_, ?_, ?_, ?_, ?_⟩
  · rw [view2]
    have filled := enc.filled.set (e := e) (s := none) (k := .hole) (x := .hole) (.inr ⟨rfl, rfl⟩)
      (by simp) (by simp)
    exact filled.congr rfl rfl rfl rfl rfl
  · have elements := congrArg (·.elements) view2
    simp only at elements
    refine Eq.trans elements ?_
    rw [nof, enc.elements, set, reduceOption_slot, reduceOption_removed]
    simp only [List.length_append, List.length_cons]
    omega
  · have deleted := congrArg (·.deleted) view2
    simp only at deleted
    refine Eq.trans deleted ?_
    rw [nod, enc.deleted, set, reduceOption_slot, reduceOption_removed]
    simp only [List.length_append, List.length_cons]
    omega
  · have distinct := enc.distinct
    rw [set]
    unfold DistinctKeys at distinct ⊢
    rw [reduceOption_slot] at distinct
    rw [reduceOption_removed]
    exact distinct.sublist (List.sublist_cons_self p _ |>.append_left _)
  · exact next.trans enc.current
  · intro isSet q live
    apply enc.sets isSet
    rw [set, reduceOption_removed, List.mem_append] at live
    rw [reduceOption_slot, List.mem_append, List.mem_cons]
    rcases live with before | after
    · exact .inl before
    · exact .inr (.inr after)

/-! ## A new entry -/

theorem view_insertNewEntry {b : Nat} (inside : (b : Int) < t.capacity) (e : Nat) :
    (t.insertNewEntry b e).view =
      { t.view with
        bucket := Function.update t.view.bucket b (.int e)
        next := Function.update t.view.next e (t.view.bucket b) } := by
  have room : 0 ≤ t.capacity := by omega
  have first : t.getElement (bucketToIndex b) = t.view.bucket b := by
    simp only [view]
    rw [if_pos inside]
  have view1 := view_setEntry (t := t) room (Nat.le_refl _) e (t.view.bucket b)
  have capacity : (t.setElement (t.entryToIndex e + d.entrySize) (t.view.bucket b)).capacity =
      t.capacity := congrArg (·.capacity) view1
  have view2 := view_setBucket (t := t.setElement (t.entryToIndex e + d.entrySize) (t.view.bucket b))
    (b := b) (by rw [capacity]; exact inside) (.int e)
  have notFirst : ¬ d.entrySize = 0 := by cases d <;> simp [HashDerived.entrySize]
  have notValue : ¬ d.entrySize = valueOffset d := by
    have := valueOffset_lt d
    omega
  rw [view1] at view2
  simp only [notFirst, notValue, if_true, if_false] at view2
  simp only [insertNewEntry, setNextEntry, first]
  exact view2

theorem nextTable_insertNewEntry (t : LinkedHashTable d α) (b : Nat) (e : Int) :
    (t.insertNewEntry b e).nextTable = t.nextTable := rfl

theorem view_setKey (room : 0 ≤ t.capacity) (e : Nat) (k : JSTaggedValue α) :
    (t.setKey e k).view =
      { t.view with
        key := Function.update t.view.key e k
        value := if d = .set then Function.update t.view.value e k else t.view.value } := by
  have written := view_setEntry (t := t) (i := 0) room (Nat.zero_le _) e k
  unfold setKey
  cases d <;> simpa [valueOffset, HashDerived.entrySize] using written

/-- The end of `Insert`. -/
theorem view_insertAtEnd (rt : HashRuntime α) {m : Nat} (room : 0 < t.capacity)
    (last : t.numberOfElements + t.numberOfDeletedElements = m) (sets : d = .set → value = key) :
    (t.insertAtEnd rt key value).view =
      { t.view with
        elements := t.numberOfElements + 1
        bucket := Function.update t.view.bucket (bucketOf t.capacity (rt.hash key)) (.int m)
        key := Function.update t.view.key m key
        value := Function.update t.view.value m value
        next := Function.update t.view.next m
          (t.view.bucket (bucketOf t.capacity (rt.hash key))) } := by
  have inside := bucketOf_lt room (rt.hash key)
  have view1 := view_insertNewEntry (t := t) inside m
  simp only [insertAtEnd, last]
  have bucket : t.hashToBucket (rt.hash key) = bucketOf t.capacity (rt.hash key) := rfl
  rw [bucket]
  generalize t.insertNewEntry (bucketOf t.capacity (rt.hash key)) m = t1 at view1
  have room1 : 0 ≤ t1.capacity := by
    have same : t1.capacity = t.capacity := congrArg (·.capacity) view1
    omega
  have view2 := view_setKey room1 m key
  generalize t1.setKey m key = t2 at view2
  have room2 : 0 ≤ t2.capacity := by
    have same : t2.capacity = t1.capacity := congrArg (·.capacity) view2
    omega
  have view3 := view_setValue room2 m value
  generalize t2.setValue m value = t3 at view3
  have room3 : 0 ≤ t3.capacity := by
    have same : t3.capacity = t2.capacity := congrArg (·.capacity) view3
    omega
  have elements : t3.numberOfElements = t.numberOfElements := by
    have same : t3.view.elements = t.view.elements := by rw [view3, view2, view1]
    exact same
  rw [view_setNumberOfElements room3, elements, view3, view2, view1]
  cases d with
  | map => simp
  | set => simp [sets rfl]

theorem distinct_append {entries : List (JSTaggedValue α × JSTaggedValue α)}
    (distinct : DistinctKeys rt entries) (fresh : ∀ p ∈ entries, rt.sameValueZero key p.1 = false) :
    DistinctKeys rt (entries ++ [(key, value)]) := by
  refine List.pairwise_append.mpr ⟨distinct, List.pairwise_singleton _ _, fun p live q last => ?_⟩
  rw [List.mem_singleton.mp last]
  by_contra same
  have back := fresh p live
  rw [rt.symm _ _ (by simpa using same)] at back
  cases back

theorem insertAtEnd_encodes (enc : Encodes rt t slots) (isKey : key ≠ .hole)
    (fresh : ∀ p ∈ slots.reduceOption, rt.sameValueZero key p.1 = false)
    (free : (slots.length : Int) < t.capacity) (sets : d = .set → value = key) :
    Encodes rt (t.insertAtEnd rt key value) (slots ++ [some (key, value)]) := by
  have last : t.numberOfElements + t.numberOfDeletedElements = slots.length := by
    rw [enc.elements, enc.deleted]
    omega
  have view := view_insertAtEnd rt enc.filled.room last sets
  have live : (slots ++ [some (key, value)]).reduceOption = slots.reduceOption ++ [(key, value)] := by
    simp [List.reduceOption_append]
  refine ⟨?_, ?_, ?_, ?_, enc.current, ?_⟩
  · rw [view]
    exact (enc.filled.append isKey free).congr rfl rfl rfl rfl rfl
  · have elements : (t.insertAtEnd rt key value).numberOfElements = t.numberOfElements + 1 :=
      congrArg (·.elements) view
    rw [elements, enc.elements, live]
    simp
  · have deleted : (t.insertAtEnd rt key value).numberOfDeletedElements =
        t.numberOfDeletedElements := congrArg (·.deleted) view
    rw [deleted, enc.deleted, live]
    simp only [List.length_append, List.length_singleton]
    omega
  · rw [live]
    exact distinct_append enc.distinct fresh
  · intro isSet p live'
    rw [live, List.mem_append, List.mem_singleton] at live'
    rcases live' with before | rfl
    · exact enc.sets isSet p before
    · exact sets isSet

end LinkedHash

end ArkRuntime
