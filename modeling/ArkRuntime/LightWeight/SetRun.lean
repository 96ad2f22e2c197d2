import ArkRuntime.LightWeight.SetAddAll

/-!
# Runs of `LightWeightSet`

While `IncreaseCapacityTo` and `AddAll` are not called, both arrays have the same length, and `Add`,
`Remove`, `RemoveAt` and `Clear` keep the slots in use in order. The set of values that the operations
describe is carried along with the container and compared with what `Has`, `GetIndexOf` and `Remove` say.
-/

namespace ArkRuntime

namespace JSAPILightWeightSet

variable {α : Type} {ops : SetOps α} {obj obj' : JSAPILightWeightSet α} {value : JSTaggedValue α}

/-- `GetIndexOf`. -/
def getIndexOf (ops : SetOps α) (obj : JSAPILightWeightSet α) (value : JSTaggedValue α) : Option Int :=
  obj.getHashIndex ops value obj.length

/-- Both arrays have the same length and a free slot. -/
structure Level (obj : JSAPILightWeightSet α) : Prop where
  values : obj.length < obj.values.length
  hashes : obj.hashes.length = obj.values.length

theorem Level.roomy (level : Level obj) : Roomy obj :=
  ⟨level.values, Nat.le_of_eq level.hashes.symm⟩

theorem level_construct : Level (construct : JSAPILightWeightSet α) := ⟨show 0 < 8 by decide, rfl⟩

variable {p : Nat} {x : JSTaggedValue α}

theorem Level.inserted {hash : JSTaggedValue α} (level : Level obj)
    (inserted : Inserted obj obj' p hash value) : Level obj' := by
  have room := level.values
  have length := inserted.length
  have hCap := inserted.hashCapacity
  have vCap := inserted.valueCapacity
  have same := level.hashes
  by_cases full : obj.hashes.length ≤ obj.length + 1
  · rw [if_pos full] at hCap vCap
    exact ⟨by omega, by omega⟩
  · rw [if_neg full] at hCap vCap
    exact ⟨by omega, by omega⟩

/-! ## `RemoveAt` and `Remove` -/

/-- `obj'` is `obj` without the slot `p`. -/
structure Erased (obj obj' : JSAPILightWeightSet α) (p : Nat) : Prop where
  place : p < obj.length
  length : obj'.length = obj.length - 1
  hashes : obj'.hashes.take obj'.length = (obj.hashes.take obj.length).eraseIdx p
  elements : obj'.elements = obj.elements.eraseIdx p
  hashCapacity : obj'.hashes.length = obj.hashes.length
  valueCapacity : obj'.values.length = obj.values.length

theorem removeAt_erases (inside : Inside obj) {index : Int} (low : 0 ≤ index)
    (high : index < obj.length) :
    ∃ obj', obj.removeAt index = some (obj', true) ∧ Erased obj obj' index.toNat := by
  have place : index.toNat < obj.length := by omega
  obtain ⟨h, removed, hLength, hSlots⟩ := Slots.removeElementByIndex_spec place inside.hashes
  obtain ⟨v, removed', vLength, vSlots⟩ := Slots.removeElementByIndex_spec place inside.values
  refine ⟨⟨h, v, obj.length - 1⟩, ?_, place, rfl, hSlots, vSlots, hLength, vLength⟩
  rw [removeAt, if_neg (by omega), removed]
  simp only [Option.bind_eq_bind, Option.bind_some]
  rw [removed']
  rfl

theorem Level.erased (level : Level obj) (erased : Erased obj obj' p) : Level obj' := by
  have room := level.values
  have same := level.hashes
  have length := erased.length
  have hCap := erased.hashCapacity
  have vCap := erased.valueCapacity
  exact ⟨by omega, by omega⟩

theorem Erased.ordered (erased : Erased obj obj' p) (ordered : Ordered ops obj) : Ordered ops obj' := by
  rw [Ordered, erased.hashes, erased.elements]
  refine ⟨?_, ordered.sorted.eraseIdx p, ordered.distinct.eraseIdx p⟩
  rw [ordered.hashes, List.eraseIdx_map]

theorem Ordered.distinct_slots (lawful : ops.Lawful) (ordered : Ordered ops obj) {i j : Nat}
    {y : JSTaggedValue α} (other : i ≠ j) (first : obj.elements[i]? = some x)
    (second : obj.elements[j]? = some y) : ops.sameValue x y = false := by
  obtain ⟨below, rfl⟩ := List.getElem?_eq_some_iff.mp first
  obtain ⟨below', rfl⟩ := List.getElem?_eq_some_iff.mp second
  have pairs := List.pairwise_iff_getElem.mp ordered.distinct
  rcases Nat.lt_or_gt_of_ne other with less | more
  · exact pairs i j below below' less
  · rw [← Bool.not_eq_true]
    intro same
    have apart := pairs j i below' below more
    rw [lawful.symm _ _ same] at apart
    cases apart

/-- What is left is everything that is not the value in the slot: no other slot holds it. -/
theorem Erased.contains (lawful : ops.Lawful) (erased : Erased obj obj' p) (ordered : Ordered ops obj)
    (slot : obj.elements[p]? = some x) (v : JSTaggedValue α) :
    Contains ops obj' v ↔ Contains ops obj v ∧ ¬ ops.sameValue x v = true := by
  constructor
  · rintro ⟨e, mem, same⟩
    rw [erased.elements] at mem
    refine ⟨⟨e, List.mem_of_mem_eraseIdx mem, same⟩, fun same' => ?_⟩
    obtain ⟨i, other, there⟩ := List.mem_eraseIdx_iff_getElem?.mp mem
    have apart := ordered.distinct_slots lawful other there slot
    rw [lawful.trans _ _ _ same (lawful.symm _ _ same')] at apart
    cases apart
  · rintro ⟨⟨e, mem, same⟩, differs⟩
    refine ⟨e, ?_, same⟩
    obtain ⟨i, there⟩ := List.getElem?_of_mem mem
    rw [erased.elements, List.mem_eraseIdx_iff_getElem?]
    refine ⟨i, fun eq => ?_, there⟩
    subst eq
    rw [slot, Option.some.injEq] at there
    exact differs (there ▸ same)

/-- `GetIndexOf` on a sorted set. -/
theorem getIndexOf_ordered (lawful : ops.Lawful) (inside : Inside obj) (ordered : Ordered ops obj)
    (value : JSTaggedValue α) :
    ∃ r : Int, obj.getIndexOf ops value = some r ∧ r < obj.length ∧
      (0 ≤ r → ∃ e, obj.elements[r.toNat]? = some e ∧ obj.values[r.toNat]? = some e ∧
        ops.sameValue e value = true) ∧ (r < 0 → ¬ Contains ops obj value) := by
  obtain ⟨r, search, -, high, locate⟩ := getHashIndex_spec ops inside value
  have located := locate lawful ordered
  refine ⟨r, search, high, fun found => ?_, fun absent => ?_⟩
  · have below : r.toNat < obj.length := by omega
    have bound := inside.values
    refine ⟨obj.values.getD r.toNat .hole, getElem?_elements inside below, ?_, located.found found⟩
    rw [← getElem?_elements inside below, elements, List.getElem?_take_of_lt below]
  · exact located.not_contains inside absent

/-- `Remove` on a sorted set. -/
theorem remove_ordered (lawful : ops.Lawful) (inside : Inside obj) (ordered : Ordered ops obj)
    (value : JSTaggedValue α) :
    (obj.remove ops value = some (obj, .undefined) ∧ ¬ Contains ops obj value) ∨
      ∃ obj' p x, obj.remove ops value = some (obj', x) ∧ obj.elements[p]? = some x ∧
        ops.sameValue x value = true ∧ Erased obj obj' p := by
  obtain ⟨r, search, high, found, absent⟩ := getIndexOf_ordered lawful inside ordered value
  rw [getIndexOf] at search
  by_cases negative : r < 0
  · refine .inl ⟨?_, absent negative⟩
    rw [remove, search]
    simp only [Option.bind_eq_bind, Option.bind_some, negative, if_true]
    rfl
  · obtain ⟨x, slot, read, same⟩ := found (by omega)
    obtain ⟨obj', removed, erased⟩ := removeAt_erases inside (by omega) high
    refine .inr ⟨obj', r.toNat, x, ?_, slot, same, erased⟩
    rw [remove, search]
    simp only [Option.bind_eq_bind, Option.bind_some, negative, if_false]
    rw [read, Option.bind_some, removed]
    rfl

theorem mem_elements_of_slot (slot : obj.elements[p]? = some x) (same : ops.sameValue x value = true) :
    Contains ops obj value :=
  ⟨x, List.mem_of_getElem? slot, same⟩

/-! ## Runs -/

/-- The operations that leave the capacities to `Add`. -/
inductive Change (α : Type) where
  | add (value : JSTaggedValue α)
  | remove (value : JSTaggedValue α)
  | removeAt (index : Int)
  | clear

def Change.toOp : Change α → Op α
  | .add value => .add value
  | .remove value => .remove value
  | .removeAt index => .removeAt index
  | .clear => .clear

/-- What the operations mean for the set of values. The value that `RemoveAt` takes away is the one in
    the slot. -/
def changeMembers (ops : SetOps α) (obj : JSAPILightWeightSet α) (members : Set (JSTaggedValue α)) :
    Change α → Set (JSTaggedValue α)
  | .add value => {v | ops.sameValue value v = true ∨ v ∈ members}
  | .remove value => {v | v ∈ members ∧ ¬ ops.sameValue value v = true}
  | .removeAt index =>
      {v | v ∈ members ∧ ¬ ∃ x, 0 ≤ index ∧ obj.elements[index.toNat]? = some x ∧
        ops.sameValue x v = true}
  | .clear => ∅

/-- One operation on the container and on the set of values it stands for. -/
def trackedStep (ops : SetOps α) (s : JSAPILightWeightSet α × Set (JSTaggedValue α)) (change : Change α) :
    Option (JSAPILightWeightSet α × Set (JSTaggedValue α)) :=
  (s.1.step ops change.toOp).map fun obj => (obj, changeMembers ops s.1 s.2 change)

/-- The invariant of runs. -/
structure Tracked (ops : SetOps α) (obj : JSAPILightWeightSet α) (members : Set (JSTaggedValue α)) :
    Prop where
  level : Level obj
  ordered : Ordered ops obj
  members : ∀ v, v ∈ members ↔ Contains ops obj v

variable {members : Set (JSTaggedValue α)}

theorem tracked_add (lawful : ops.Lawful) (tracked : Tracked ops obj members) (value : JSTaggedValue α) :
    ∃ obj', obj.step ops (.add value) = some obj' ∧
      Tracked ops obj' (changeMembers ops obj members (.add value)) := by
  obtain ⟨level, ordered, same⟩ := tracked
  rcases add_ordered lawful level.roomy ordered value with
    ⟨run, present⟩ | ⟨obj', p, run, -, inserted, ordered'⟩
  · refine ⟨obj, by rw [step, run]; rfl, level, ordered, fun v => ?_⟩
    rw [← same v]
    constructor
    · rintro (is | mem)
      · exact (same v).mpr (present.congr lawful is)
      · exact mem
    · exact .inr
  · refine ⟨obj', by rw [step, run]; rfl, level.inserted inserted, ordered', fun v => ?_⟩
    rw [inserted.contains level.roomy.inside, ← same v]
    rfl

theorem tracked_erased (lawful : ops.Lawful) (tracked : Tracked ops obj members)
    (slot : obj.elements[p]? = some x) (erased : Erased obj obj' p) :
    Tracked ops obj' {v | v ∈ members ∧ ¬ ops.sameValue x v = true} := by
  refine ⟨tracked.level.erased erased, erased.ordered tracked.ordered, fun v => ?_⟩
  rw [erased.contains lawful tracked.ordered slot, ← tracked.members v]
  rfl

theorem tracked_remove (lawful : ops.Lawful) (tracked : Tracked ops obj members)
    (value : JSTaggedValue α) :
    ∃ obj', obj.step ops (.remove value) = some obj' ∧
      Tracked ops obj' (changeMembers ops obj members (.remove value)) := by
  rcases remove_ordered lawful tracked.level.roomy.inside tracked.ordered value with
    ⟨run, absent⟩ | ⟨obj', p, x, run, slot, same, erased⟩
  · refine ⟨obj, by rw [step, run]; rfl, tracked.level, tracked.ordered, fun v => ?_⟩
    rw [← tracked.members v]
    refine ⟨fun mem => mem.1, fun mem => ⟨mem, fun is => absent ?_⟩⟩
    exact ((tracked.members v).mp mem).congr lawful (lawful.symm _ _ is)
  · refine ⟨obj', by rw [step, run]; rfl, ?_⟩
    have others : changeMembers ops obj members (.remove value) =
        {v | v ∈ members ∧ ¬ ops.sameValue x v = true} := by
      ext v
      refine and_congr_right fun _ => not_congr ⟨fun is => ?_, fun is => ?_⟩
      · exact lawful.trans _ _ _ same is
      · exact lawful.trans _ _ _ (lawful.symm _ _ same) is
    rw [others]
    exact tracked_erased lawful tracked slot erased

theorem tracked_removeAt (lawful : ops.Lawful) (tracked : Tracked ops obj members) (index : Int) :
    ∃ obj', obj.step ops (.removeAt index) = some obj' ∧
      Tracked ops obj' (changeMembers ops obj members (.removeAt index)) := by
  have inside := tracked.level.roomy.inside
  by_cases outside : index < 0 ∨ (obj.length : Int) ≤ index
  · refine ⟨obj, by rw [step, removeAt, if_pos outside]; rfl, tracked.level, tracked.ordered,
      fun v => ?_⟩
    rw [← tracked.members v]
    refine ⟨fun mem => mem.1, fun mem => ⟨mem, ?_⟩⟩
    rintro ⟨x, low, slot, -⟩
    have below := (List.getElem?_eq_some_iff.mp slot).1
    rw [length_elements inside] at below
    omega
  · have slot := getElem?_elements inside (show index.toNat < obj.length by omega)
    obtain ⟨obj', run, erased⟩ := removeAt_erases inside (show 0 ≤ index by omega) (by omega)
    refine ⟨obj', by rw [step, run]; rfl, ?_⟩
    have others : changeMembers ops obj members (.removeAt index) =
        {v | v ∈ members ∧ ¬ ops.sameValue (obj.values.getD index.toNat .hole) v = true} := by
      ext v
      refine and_congr_right fun _ => not_congr ⟨?_, fun is => ⟨_, by omega, slot, is⟩⟩
      rintro ⟨x, -, here, is⟩
      rw [slot, Option.some.injEq] at here
      rw [here]
      exact is
    rw [others]
    exact tracked_erased lawful tracked slot erased

theorem tracked_clear (tracked : Tracked ops obj members) :
    ∃ obj', obj.step ops .clear = some obj' ∧
      Tracked ops obj' (changeMembers ops obj members .clear) := by
  obtain ⟨obj', run, length, hLength, vLength⟩ := clear_spec tracked.level.roomy.inside
  have empty : obj'.elements = [] := by rw [elements, length, List.take_zero]
  have room := tracked.level.values
  refine ⟨obj', run, ⟨by omega, by rw [hLength, vLength]; exact tracked.level.hashes⟩, ?_, fun v => ?_⟩
  · rw [Ordered, empty, length, List.take_zero]
    exact ⟨rfl, .nil, .nil⟩
  · constructor
    · exact False.elim
    · rintro ⟨e, mem, -⟩
      rw [empty] at mem
      cases mem

theorem tracked_step (lawful : ops.Lawful) (s : JSAPILightWeightSet α × Set (JSTaggedValue α))
    (change : Change α) (tracked : Tracked ops s.1 s.2) :
    ∃ s', trackedStep ops s change = some s' ∧ Tracked ops s'.1 s'.2 := by
  have next : ∃ obj', s.1.step ops change.toOp = some obj' ∧
      Tracked ops obj' (changeMembers ops s.1 s.2 change) := by
    cases change with
    | add value => exact tracked_add lawful tracked value
    | remove value => exact tracked_remove lawful tracked value
    | removeAt index => exact tracked_removeAt lawful tracked index
    | clear => exact tracked_clear tracked
  obtain ⟨obj', run, tracked'⟩ := next
  exact ⟨(obj', changeMembers ops s.1 s.2 change), by rw [trackedStep, run]; rfl, tracked'⟩

theorem tracked_construct : Tracked ops construct ∅ := by
  refine ⟨level_construct, ⟨rfl, .nil, .nil⟩, fun v => ?_⟩
  constructor
  · exact False.elim
  · rintro ⟨e, mem, -⟩
    cases mem

/-- The container is the set of values, sorted by their hashes. -/
structure Represents (ops : SetOps α) (obj : JSAPILightWeightSet α) (members : Set (JSTaggedValue α)) :
    Prop where
  length : obj.elements.length = obj.length
  hashes : obj.hashes.take obj.length = obj.elements.map fun v => SetOps.hashSlot (ops.hash v)
  sorted : obj.elements.Pairwise fun x y => ops.hash x ≤ ops.hash y
  distinct : obj.elements.Pairwise fun x y => ops.sameValue x y = false
  has : ∀ v, ∃ found, obj.has ops v = some found ∧ (found = true ↔ v ∈ members)
  getIndexOf : ∀ v, ∃ r, obj.getIndexOf ops v = some r ∧ (0 ≤ r ↔ v ∈ members) ∧
    (0 ≤ r → ∃ e, obj.elements[r.toNat]? = some e ∧ ops.sameValue e v = true)
  remove : ∀ v, ∃ obj' x, obj.remove ops v = some (obj', x) ∧
    (v ∈ members → ops.sameValue x v = true ∧
      ∃ p, obj.elements[p]? = some x ∧ obj'.elements = obj.elements.eraseIdx p) ∧
    (v ∉ members → obj' = obj ∧ x = .undefined)

theorem Tracked.represents (lawful : ops.Lawful) (tracked : Tracked ops obj members) :
    Represents ops obj members := by
  have inside := tracked.level.roomy.inside
  have ordered := tracked.ordered
  have index (v : JSTaggedValue α) : ∃ r, obj.getIndexOf ops v = some r ∧ (0 ≤ r ↔ v ∈ members) ∧
      (0 ≤ r → ∃ e, obj.elements[r.toNat]? = some e ∧ ops.sameValue e v = true) := by
    obtain ⟨r, search, -, found, absent⟩ := getIndexOf_ordered lawful inside ordered v
    refine ⟨r, search, ⟨fun low => ?_, fun mem => ?_⟩, fun low => ?_⟩
    · obtain ⟨e, slot, -, same⟩ := found low
      exact (tracked.members v).mpr (mem_elements_of_slot slot same)
    · apply Int.not_lt.mp
      intro negative
      exact absent negative ((tracked.members v).mp mem)
    · obtain ⟨e, slot, -, same⟩ := found low
      exact ⟨e, slot, same⟩
  refine ⟨length_elements inside, ordered.hashes, ordered.sorted, ordered.distinct, fun v => ?_, index,
    fun v => ?_⟩
  · obtain ⟨r, search, mem, -⟩ := index v
    rw [JSAPILightWeightSet.getIndexOf] at search
    refine ⟨!decide (r < 0), ?_, ?_⟩
    · rw [JSAPILightWeightSet.has, search]
      rfl
    · rw [← mem, Bool.not_eq_true', decide_eq_false_iff_not, Int.not_lt]
  · rcases remove_ordered lawful inside ordered v with
      ⟨run, absent⟩ | ⟨obj', p, x, run, slot, same, erased⟩
    · refine ⟨obj, .undefined, run, fun mem => ?_, fun _ => ⟨rfl, rfl⟩⟩
      exact absurd ((tracked.members v).mp mem) absent
    · refine ⟨obj', x, run, fun _ => ⟨same, p, slot, erased.elements⟩, fun no => ?_⟩
      exact absurd ((tracked.members v).mpr (mem_elements_of_slot slot same)) no

/-- After every run the container represents the set that the operations describe. -/
theorem lightWeightSet_represents_of_run (ops : SetOps α) (lawful : ops.Lawful)
    (changes : List (Change α)) :
    ∃ obj members, run (trackedStep ops) (construct, ∅) changes = some (obj, members) ∧
      Represents ops obj members := by
  have all : Allowed (trackedStep ops) (fun _ _ => True) (construct, ∅) changes :=
    allowed_of_forall fun _ _ => trivial
  obtain ⟨⟨obj, members⟩, reached, tracked⟩ := run_invariant (I := fun s => Tracked ops s.1 s.2)
    (fun s change tracked _ => tracked_step lawful s change tracked) changes (construct, ∅)
    tracked_construct all
  exact ⟨obj, members, reached, tracked.represents lawful⟩

/-- The values 5 and the reference have the same hash. -/
theorem lightWeightSet_represents_of_run_colliding :
    unitOps.hash (.int 5) = unitOps.hash (.ref ()) ∧
      ∃ obj members, run (trackedStep unitOps) (construct, ∅)
          [.add (.int 5), .add (.ref ()), .add (.int 9), .remove (.int 5), .removeAt 1] =
            some (obj, members) ∧ Represents unitOps obj members :=
  ⟨rfl, lightWeightSet_represents_of_run unitOps lawful_unitOps _⟩

end JSAPILightWeightSet

end ArkRuntime
