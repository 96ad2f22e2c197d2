import ArkRuntime.LinkedHash.MapIterator

/-!
# `MapIteratorToList`

`Array.from` takes the entries of a map iterator from the table that the iterator recorded, without the
way to the current table that `NextInternal` goes first. While the recorded table is the current one,
the list is what the calls of `NextInternal` hand out.
-/

namespace ArkRuntime

open LinkedHashTable

namespace JSMapIterator

variable {α : Type}

/-- One round of the loop of `MapIteratorToList`: the index, and the list so far. -/
def listStep (t : LinkedHashTable .map α) (kind : IterationKind) (totalElements : Int)
    (s : Int × List (IterValue α)) : (Int × List (IterValue α)) ⊕ List (IterValue α) :=
  if s.1 < totalElements then
    if (t.getKey s.1).isHole then .inl (s.1 + 1, s.2)
    else .inl (s.1 + 1, s.2 ++ [itemOf kind (t.getKey s.1) (t.getValue s.1)])
  else .inr s.2

/-- `JSMapIterator::MapIteratorToList`. The elements of the list get `totalElements` slots, as a
    `uint32_t`: a negative number is more than fits into a heap. -/
def mapIteratorToList (h : TableHeap .map α) (it : JSMapIterator) : Option (List (IterValue α)) :=
  match it.iteratedMap with
  | none => some []
  | some map =>
    let t := h.table map
    let totalElements := t.numberOfElements + t.numberOfDeletedElements
    if totalElements < 0 then none
    else iter (listStep t it.iterationKind totalElements) (totalElements.toNat + 1) (it.nextIndex, [])

/-- What repeated calls of `NextInternal` hand out until one is done. -/
def drain (h : TableHeap .map α) : Nat → JSMapIterator → Option (List (IterValue α))
  | 0, _ => none
  | fuel + 1, it => do
    let (result, it) ← it.nextInternal h
    if result.done then return []
    else
      let rest ← drain h fuel it
      return result.value :: rest

/-- `MapIteratorToList` and repeated calls of `NextInternal` give the same list. -/
def ListsAsNext (h : TableHeap .map α) (it : JSMapIterator) : Prop :=
  ∃ list, it.mapIteratorToList h = some list ∧ ∃ fuel, it.drain h fuel = some list

/-- The number of calls does not matter. -/
theorem drain_unique {h : TableHeap .map α} {it : JSMapIterator} {n m : Nat}
    {list list' : List (IterValue α)} (run : it.drain h n = some list)
    (run' : it.drain h m = some list') : list = list' := by
  induction n generalizing it m list list' with
  | zero => cases run
  | succ n ih =>
    cases m with
    | zero => cases run'
    | succ m =>
      rw [drain] at run run'
      cases called : it.nextInternal h with
      | none =>
        rw [called] at run
        cases run
      | some r =>
        simp only [called, Option.bind_eq_bind, Option.bind_some] at run run'
        by_cases done : r.1.done = true
        · rw [if_pos done] at run run'
          exact (Option.some.inj run).symm.trans (Option.some.inj run')
        · rw [if_neg done, Option.bind_eq_some_iff] at run run'
          obtain ⟨rest, inner, same⟩ := run
          obtain ⟨rest', inner', same'⟩ := run'
          rw [← Option.some.inj same, ← Option.some.inj same', ih inner inner']

end JSMapIterator

namespace LinkedHash

open JSMapIterator

variable {α : Type} {rt : HashRuntime α} {kind : IterationKind}

/-- What is handed out for the slots of a table. -/
def itemsOf (kind : IterationKind) (dated : List (Dated α)) : List (IterValue α) :=
  (livesOf dated).map fun l => itemOf kind l.key l.value

theorem itemsOf_dead {dated : List (Dated α)} {j : Nat}
    (dead : ∀ i x, j ≤ i → dated[i]? = some x → x.2.isSome = false) :
    itemsOf kind (dated.drop j) = [] := by
  have empty : livesOf (dated.drop j) = [] := by
    rw [livesOf, List.filterMap_eq_nil_iff]
    intro x mem
    obtain ⟨i, there⟩ := List.mem_iff_getElem?.mp mem
    rw [List.getElem?_drop] at there
    have gone := dead (j + i) x (Nat.le_add_right j i) there
    rw [liveOf, Option.isSome_eq_false_iff.mp gone |> Option.isNone_iff_eq_none.mp]
    rfl
  rw [itemsOf, empty, List.map_nil]

theorem itemsOf_first {dated : List (Dated α)} {j e birth : Nat} {k x : JSTaggedValue α}
    (behind : j ≤ e) (here : dated[e]? = some (birth, some (k, x)))
    (dead : ∀ i y, j ≤ i → i < e → dated[i]? = some y → y.2.isSome = false) :
    itemsOf kind (dated.drop j) = itemOf kind k x :: itemsOf kind (dated.drop (e + 1)) := by
  obtain ⟨n, rfl⟩ := Nat.exists_eq_add_of_le behind
  have parts : dated.drop j = (dated.drop j).take n ++
      (birth, some (k, x)) :: dated.drop (j + n + 1) := by
    obtain ⟨below, same⟩ := List.getElem?_eq_some_iff.mp here
    rw [← same, List.getElem_cons_drop, ← List.drop_drop, List.take_append_drop]
  have passed : itemsOf kind ((dated.drop j).take n) = [] := by
    have short : ∀ i y, 0 ≤ i → ((dated.drop j).take n)[i]? = some y → y.2.isSome = false := by
      intro i y _ there
      rw [List.getElem?_take] at there
      split_ifs at there with less
      rw [List.getElem?_drop] at there
      exact dead (j + i) y (by omega) (by omega) there
    exact itemsOf_dead short
  rw [parts, itemsOf, livesOf_append, List.map_append]
  change itemsOf kind _ ++ _ = _
  rw [passed]
  rfl

section Table

variable {t : LinkedHashTable .map α} {dated : List (Dated α)}

/-- The loop of `MapIteratorToList` from the `j`-th slot on. -/
theorem listStep_spec (holds : Holds t.view (slotsOf dated)) (kind : IterationKind) {n j fuel : Nat}
    (left : j + n = dated.length) (enough : n < fuel) (list : List (IterValue α)) :
    iter (listStep t kind dated.length) fuel ((j : Int), list) =
      some (list ++ itemsOf kind (dated.drop j)) := by
  induction n generalizing j fuel list with
  | zero =>
    obtain ⟨fuel, rfl⟩ : ∃ k, fuel = k + 1 := ⟨fuel - 1, by omega⟩
    have past : dated.drop j = [] := List.drop_eq_nil_of_le (by omega)
    have leave : listStep t kind dated.length ((j : Int), list) = .inr list := by
      rw [listStep, if_neg]
      simp only
      omega
    rw [past, iter_inr fuel leave]
    exact congrArg some (List.append_nil list).symm
  | succ n ih =>
    obtain ⟨fuel, rfl⟩ : ∃ k, fuel = k + 1 := ⟨fuel - 1, by omega⟩
    have below : j < dated.length := by omega
    have parts : dated.drop j = dated.get ⟨j, below⟩ :: dated.drop (j + 1) :=
      List.drop_eq_getElem_cons below
    have slot : dated[j]? = some (dated.get ⟨j, below⟩) := List.getElem?_eq_getElem below
    have inside : ((j : Nat) : Int) < (dated.length : Int) := by omega
    rcases content : dated.get ⟨j, below⟩ with ⟨birth, _ | ⟨k, x⟩⟩
    · rw [content] at slot parts
      have hole : t.getKey j = .hole := holds.dead (by simp [slotsOf, slot])
      have again : listStep t kind dated.length ((j : Int), list) =
          .inl (((j + 1 : Nat) : Int), list) := by
        rw [listStep, if_pos inside, hole]
        rfl
      rw [iter_inl fuel again, ih (by omega) (by omega), parts]
      rfl
    · rw [content] at slot parts
      obtain ⟨key, value, isKey⟩ := holds.live (e := j) (k := k) (x := x) (by simp [slotsOf, slot])
      have key : t.getKey j = k := key
      have value : t.getValue j = x := value
      have again : listStep t kind dated.length ((j : Int), list) =
          .inl (((j + 1 : Nat) : Int), list ++ [itemOf kind k x]) := by
        rw [listStep, if_pos inside, key, value, JSTaggedValue.isHole_eq_false.mpr isKey]
        rfl
      rw [iter_inl fuel again, ih (by omega) (by omega), parts, List.append_assoc]
      rfl

end Table

section Current

variable {map : HashState .map α} {dated : List (Dated α)} {it : JSMapIterator} {j : Nat}

/-- One call of `NextInternal` in the current table. -/
theorem nextInternal_current (enc : Encodes rt map.table (slotsOf dated))
    (here : it.iteratedMap = some map.address) (index : it.nextIndex = j) (inside : j ≤ dated.length) :
    (∃ it', it.nextInternal map.heap = some (⟨.tagged .undefined, true⟩, it') ∧
        itemsOf it.iterationKind (dated.drop j) = []) ∨
      ∃ e item it', j ≤ e ∧ e < dated.length ∧
        it.nextInternal map.heap = some (⟨item, false⟩, it') ∧
        it'.iteratedMap = some map.address ∧ it'.nextIndex = ((e + 1 : Nat) : Int) ∧
        it'.iterationKind = it.iterationKind ∧
        itemsOf it.iterationKind (dated.drop j) =
          item :: itemsOf it.iterationKind (dated.drop (e + 1)) := by
  have table : map.heap.table map.address = map.table := rfl
  have total : map.table.numberOfElements + map.table.numberOfDeletedElements = dated.length := by
    rw [enc.total, slotsOf, List.length_map]
  have updated : iter (updateStep map.heap) (map.heap.size + 1) (map.address, (j : Int)) =
      some (map.address, (j : Int)) := by
    apply iter_inr
    simp only [updateStep, table, enc.current]
  obtain ⟨found, search, answer⟩ := nextStep_spec enc.filled.holds inside
  rcases answer with ⟨rfl, dead⟩ | ⟨e, birth, k, x, rfl, behind, slot, dead⟩
  · refine .inl ⟨{ it with iteratedMap := none, nextIndex := j }, ?_, itemsOf_dead dead⟩
    simp [nextInternal, update, here, index, updated, table, total, search]
  · obtain ⟨key, value, -⟩ := enc.filled.holds.live (e := e) (k := k) (x := x) (by simp [slotsOf, slot])
    have key : map.table.getKey e = k := key
    have value : map.table.getValue e = x := value
    refine .inr ⟨e, itemOf it.iterationKind k x,
      { it with iteratedMap := some map.address, nextIndex := ((e + 1 : Nat) : Int) }, behind,
      (List.getElem?_eq_some_iff.mp slot).1, ?_, rfl, rfl, rfl, itemsOf_first behind slot dead⟩
    simp [nextInternal, update, here, index, updated, table, total, search, key, value]

/-- The calls of `NextInternal` from the `j`-th slot on. -/
theorem drain_current (enc : Encodes rt map.table (slotsOf dated)) {fuel : Nat}
    (here : it.iteratedMap = some map.address) (index : it.nextIndex = j) (inside : j ≤ dated.length)
    (enough : dated.length - j < fuel) :
    it.drain map.heap fuel = some (itemsOf it.iterationKind (dated.drop j)) := by
  induction fuel generalizing it j with
  | zero => exact absurd enough (Nat.not_lt_zero _)
  | succ fuel ih =>
    rw [drain]
    rcases nextInternal_current enc here index inside with ⟨it', called, empty⟩ |
      ⟨e, item, it', behind, below, called, here', index', kind', items⟩
    · rw [called, empty]
      rfl
    · have rest := ih here' index' (by omega) (by omega)
      rw [kind'] at rest
      simp only [called, Option.bind_eq_bind, Option.bind_some, Bool.false_eq_true, if_false, rest,
        items]
      rfl

theorem listsAsNext_current (enc : Encodes rt map.table (slotsOf dated))
    (here : it.iteratedMap = some map.address) (index : it.nextIndex = j)
    (inside : j ≤ dated.length) : it.ListsAsNext map.heap := by
  have table : map.heap.table map.address = map.table := rfl
  have total : map.table.numberOfElements + map.table.numberOfDeletedElements = dated.length := by
    rw [enc.total, slotsOf, List.length_map]
  refine ⟨itemsOf it.iterationKind (dated.drop j), ?_, _,
    drain_current enc here index inside (Nat.lt_succ_self _)⟩
  have enough : dated.length - j < dated.length + 1 := by omega
  have loop := listStep_spec enc.filled.holds it.iterationKind (Nat.add_sub_cancel' inside) enough []
  simp only [mapIteratorToList, here, table, total, index, Int.toNat_natCast]
  rw [if_neg (by omega), loop]
  rfl

end Current

/-- The iterator is done, or the table that it recorded has not been replaced. -/
def InCurrentTable (s : MapState α) : Prop :=
  ∀ a, s.iterator.iteratedMap = some a → (s.map.heap.table a).nextTable = none

theorem walk_of_current {h : TableHeap .map α} {a b : Nat} {i j : Int} (walk : Walk h a i b j)
    (current : (h.table a).nextTable = none) : a = b ∧ i = j := by
  cases walk with
  | refl => exact ⟨rfl, rfl⟩
  | step next _ =>
    rw [current] at next
    cases next

theorem Iterating.listsAsNext {a : Iteration (JSTaggedValue α) (JSTaggedValue α)} {s : MapState α}
    (sim : Iterating rt kind a s) (current : InCurrentTable s) :
    s.iterator.ListsAsNext s.map.heap := by
  obtain ⟨dated, enc, -, stands⟩ := sim.dated
  cases position : a.position with
  | none =>
    rw [position] at stands
    have done : s.iterator.iteratedMap = none := stands
    refine ⟨[], by rw [mapIteratorToList, done], 1, ?_⟩
    simp [drain, nextInternal, update, done]
  | some p =>
    rw [position] at stands
    obtain ⟨b, j, here, -, walk, cut⟩ := stands
    obtain ⟨rfl, index⟩ := walk_of_current walk (current b here)
    exact listsAsNext_current enc here index cut.inside

/-- In every state that changes of the map and calls of `NextInternal` lead to, `MapIteratorToList`
    gives what further calls would hand out, if the table of the iterator has not been replaced. -/
theorem mapIteratorToList_of_run (rt : HashRuntime α) (kind : IterationKind) {capacity : Nat}
    (room : 0 < capacity) (before : List (HashOp α)) (ops : List (IterOp α))
    (validBefore : ∀ op ∈ before, op.Valid .map) (valid : ∀ op ∈ ops, op.Valid) :
    ∃ map s results, run (HashOp.step rt) (HashState.create .map capacity) before = some map ∧
      trace (IterOp.step rt) ⟨map, .newJSMapIterator map.address kind⟩ ops = some (s, results) ∧
      (InCurrentTable s → s.iterator.ListsAsNext s.map.heap) := by
  obtain ⟨map, reached, sim⟩ := iterating_before rt kind room before validBefore
  obtain ⟨s, results, answered, sim', -⟩ :=
    trace_spec (iterating_step (iterationFrom rt before)) ops [] _ sim valid
  exact ⟨map, s, results, reached, answered, sim'.listsAsNext⟩

/-- The second of two entries set after the iterator was made has the table replaced: `MapIteratorToList`
    gives key 1 alone, the calls of `NextInternal` give all three keys. -/
theorem mapIteratorToList_misses :
    ∃ map s results, run (HashOp.step (oneBucket Unit)) (HashState.create .map 2)
        [.insert (.int 1) (.int 5)] = some map ∧
      trace (IterOp.step (oneBucket Unit)) ⟨map, .newJSMapIterator map.address .key⟩
        [.change (.insert (.int 2) (.int 6)), .change (.insert (.int 3) (.int 7))] =
          some (s, results) ∧
      s.iterator.mapIteratorToList s.map.heap = some [.tagged (.int 1)] ∧
      s.iterator.drain s.map.heap 4 = some [.tagged (.int 1), .tagged (.int 2), .tagged (.int 3)] ∧
      ¬ s.iterator.ListsAsNext s.map.heap := by
  refine ⟨_, _, _, rfl, rfl, rfl, rfl, ?_⟩
  rintro ⟨list, lists, fuel, drained⟩
  have short : [.tagged (.int 1)] = list := Option.some.inj lists
  have long : list = [.tagged (.int 1), .tagged (.int 2), .tagged (.int 3)] := drain_unique (m := 4) drained rfl
  rw [← short] at long
  cases long

/-- After one call, and with key 1 removed, the list has the keys that are left. -/
theorem mapIteratorToList_of_run_removed :
    ∃ map s results, run (HashOp.step (oneBucket Unit)) (HashState.create .map 4)
        [.insert (.int 1) (.int 5), .insert (.int 2) (.int 6)] = some map ∧
      trace (IterOp.step (oneBucket Unit)) ⟨map, .newJSMapIterator map.address .key⟩
        [.next, .change (.delete (.int 1)), .change (.insert (.int 3) (.int 7))] = some (s, results) ∧
      s.iterator.mapIteratorToList s.map.heap = some [.tagged (.int 2), .tagged (.int 3)] ∧
      s.iterator.ListsAsNext s.map.heap := by
  obtain ⟨map, s, results, reached, answered, lists⟩ :=
    mapIteratorToList_of_run (oneBucket Unit) .key (by decide : 0 < 4)
      [.insert (.int 1) (.int 5), .insert (.int 2) (.int 6)]
      [.next, .change (.delete (.int 1)), .change (.insert (.int 3) (.int 7))]
      (by decide) (by simp [IterOp.Valid, HashOp.Valid])
  have map_eq := Option.some.inj reached
  subst map_eq
  have state_eq := congrArg Prod.fst (Option.some.inj answered)
  subst state_eq
  refine ⟨_, _, _, reached, answered, rfl, lists fun a here => ?_⟩
  have address := Option.some.inj here
  subst address
  rfl

end LinkedHash

end ArkRuntime
