import ArkRuntime.LightWeight.SetSearch
import ArkRuntime.Misc.Run

/-!
# The updates of `LightWeightSet`

`Add` leaves a set alone or inserts one slot into each array, whatever the arrays hold; on a sorted set
it inserts an absent value where it belongs. `Add` looks at the length of the hash array only, while
`IncreaseCapacityTo` makes no other array longer: the runs in which the value array is still long enough
are those at the end.
-/

namespace ArkRuntime

namespace JSAPILightWeightSet

variable {α : Type} {ops : SetOps α} {obj : JSAPILightWeightSet α} {value : JSTaggedValue α}

/-- There is a free slot in the value array, and the hash array is not shorter. -/
structure Roomy (obj : JSAPILightWeightSet α) : Prop where
  values : obj.length < obj.values.length
  hashes : obj.values.length ≤ obj.hashes.length

theorem Roomy.inside (roomy : Roomy obj) : Inside obj :=
  ⟨Nat.le_of_lt (Nat.lt_of_lt_of_le roomy.values roomy.hashes), Nat.le_of_lt roomy.values⟩

/-! ## `Add` -/

theorem makeRoom_spec {a : Slots α} {p : Nat} (place : p ≤ obj.length) (inside : obj.length < a.length) :
    ∃ a', obj.makeRoom a p = some a' ∧ a'.length = a.length ∧
      ∀ x, (a'.set p x).take (obj.length + 1) = (a.take obj.length).insertIdx p x := by
  obtain ⟨a', run, length, slots⟩ := Slots.shiftUp_insert place inside
  refine ⟨a', ?_, length, slots⟩
  rcases Nat.lt_or_eq_of_le place with less | rfl
  · rw [makeRoom, if_pos less]
    exact run
  · rw [makeRoom, if_neg (Nat.lt_irrefl _)]
    rw [Nat.sub_self] at run
    exact run

theorem expand_spec {h v : Slots α} {n : Nat} (room : n < v.length) (le : v.length ≤ h.length) :
    ∃ h' v', expand h v n = some (h', v') ∧ h'.take (n + 1) = h.take (n + 1) ∧
      v'.take (n + 1) = v.take (n + 1) ∧
      h'.length = (if h.length ≤ n + 1 then 2 * h.length else h.length) ∧
      v'.length = (if h.length ≤ n + 1 then 2 * h.length else v.length) := by
  by_cases full : h.length ≤ n + 1
  · have double : h.length <<< 1 = 2 * h.length := by rw [Nat.shiftLeft_eq]; omega
    obtain ⟨h', copied, length, slots⟩ := Slots.copyArray_longer (a := h)
      (show h.length < 2 * h.length by omega) (by omega)
    obtain ⟨v', copied', length', slots'⟩ := Slots.copyArray_longer (a := v)
      (show h.length < 2 * h.length by omega) (by omega)
    refine ⟨h', v', ?_, slots _ (by omega), slots' _ (by omega), ?_, ?_⟩
    · simp only [expand, full, if_true, double]
      rw [copied]
      simp only [Option.bind_eq_bind, Option.bind_some]
      rw [copied']
      rfl
    · rw [if_pos full, length]
    · rw [if_pos full, length']
  · refine ⟨h, v, ?_, rfl, rfl, ?_, ?_⟩
    · simp only [expand, full, if_false]
    · rw [if_neg full]
    · rw [if_neg full]

/-- `obj'` is `obj` with one more slot at `p` in both arrays. -/
structure Inserted (obj obj' : JSAPILightWeightSet α) (p : Nat) (hash value : JSTaggedValue α) :
    Prop where
  place : p ≤ obj.length
  length : obj'.length = obj.length + 1
  hashes : obj'.hashes.take obj'.length = (obj.hashes.take obj.length).insertIdx p hash
  elements : obj'.elements = obj.elements.insertIdx p value
  hashCapacity : obj'.hashes.length =
    if obj.hashes.length ≤ obj.length + 1 then 2 * obj.hashes.length else obj.hashes.length
  valueCapacity : obj'.values.length =
    if obj.hashes.length ≤ obj.length + 1 then 2 * obj.hashes.length else obj.values.length

/-- The store into an array whose slots have been moved and that may have been made longer. -/
theorem take_store {a a' : Slots α} {p n : Nat} (same : a'.take (n + 1) = a.take (n + 1))
    (x : JSTaggedValue α) : (a'.set p x).take (n + 1) = (a.set p x).take (n + 1) := by
  rw [List.take_set, same, ← List.take_set]

theorem add_spec (ops : SetOps α) (roomy : Roomy obj) (value : JSTaggedValue α) :
    ∃ r : Int, obj.getHashIndex ops value obj.length = some r ∧ r < obj.length ∧
      (ops.Lawful → Ordered ops obj → Located ops obj value r) ∧
      ((0 ≤ r ∧ obj.add ops value = some (obj, false)) ∨
        (r < 0 ∧ ∃ obj', obj.add ops value = some (obj', true) ∧
          Inserted obj obj' (-r - 1).toNat (SetOps.hashSlot (ops.hash value)) value)) := by
  obtain ⟨r, search, low, high, located⟩ := getHashIndex_spec ops roomy.inside value
  refine ⟨r, search, high, located, ?_⟩
  by_cases present : 0 ≤ r
  · refine .inl ⟨present, ?_⟩
    simp only [add, search, Option.bind_eq_bind, Option.bind_some, present, if_true]
    rfl
  · have room := roomy.values
    have le := roomy.hashes
    have place : (-r - 1).toNat ≤ obj.length := by omega
    obtain ⟨h, moved, hLength, hSlots⟩ := makeRoom_spec (a := obj.hashes) place (by omega)
    obtain ⟨v, moved', vLength, vSlots⟩ := makeRoom_spec (a := obj.values) place room
    obtain ⟨h', v', expanded, hTake, vTake, hCap, vCap⟩ :=
      expand_spec (h := h) (v := v) (n := obj.length) (by omega) (by omega)
    rw [hLength] at hCap vCap
    have hRoom : (-r - 1).toNat < h'.length := by
      rw [hCap]
      split_ifs <;> omega
    have vRoom : (-r - 1).toNat < v'.length := by
      rw [vCap]
      split_ifs <;> omega
    refine .inr ⟨by omega, ⟨h'.set (-r - 1).toNat (SetOps.hashSlot (ops.hash value)),
      v'.set (-r - 1).toNat value, obj.length + 1⟩, ?_, place, rfl, ?_, ?_, ?_, ?_⟩
    · simp only [add, search, Option.bind_eq_bind, Option.bind_some, present, if_false]
      rw [moved]
      simp only [Option.bind_some]
      rw [moved']
      simp only [Option.bind_some]
      rw [expanded]
      simp only [Option.bind_some]
      rw [store_of_lt hRoom]
      simp only [Option.bind_some]
      rw [store_of_lt vRoom]
      rfl
    · exact (take_store hTake _).trans (hSlots _)
    · exact (take_store vTake _).trans (vSlots _)
    · rw [List.length_set, hCap]
    · rw [List.length_set, vCap, vLength]

/-- One more slot does not hide that the other slots are not in order. -/
theorem Inserted.ordered_before {obj' : JSAPILightWeightSet α} {p : Nat} {hash : JSTaggedValue α}
    (inserted : Inserted obj obj' p hash value) (ordered : Ordered ops obj') : Ordered ops obj := by
  obtain ⟨hashes, sorted, distinct⟩ := ordered
  rw [inserted.hashes, inserted.elements] at hashes
  rw [inserted.elements] at sorted distinct
  refine ⟨?_, ?_, ?_⟩
  · have erased := congrArg (fun l => l.eraseIdx p) hashes
    simp only [List.eraseIdx_insertIdx_self, List.map_insertIdx] at erased
    exact erased
  · have erased := sorted.eraseIdx p
    rwa [List.eraseIdx_insertIdx_self] at erased
  · have erased := distinct.eraseIdx p
    rwa [List.eraseIdx_insertIdx_self] at erased

/-- An absent value is inserted in order. -/
theorem Inserted.ordered_after (lawful : ops.Lawful) (inside : Inside obj) (ordered : Ordered ops obj)
    {obj' : JSAPILightWeightSet α} {r : Int} (neg : r < 0) (located : Located ops obj value r)
    (inserted : Inserted obj obj' (-r - 1).toNat (SetOps.hashSlot (ops.hash value)) value) :
    Ordered ops obj' := by
  have place : (-r - 1).toNat ≤ obj.elements.length := by
    rw [length_elements inside]
    exact inserted.place
  have slot {i : Nat} {y : JSTaggedValue α} (here : obj.elements[i]? = some y) :
      i < obj.length ∧ obj.values.getD i .hole = y := by
    have below : i < obj.length := by
      rw [← length_elements inside]
      exact (List.getElem?_eq_some_iff.mp here).1
    rw [getElem?_elements inside below, Option.some.injEq] at here
    exact ⟨below, here⟩
  rw [Ordered, inserted.hashes, inserted.elements]
  refine ⟨?_, pairwise_insertIdx place ordered.sorted ?_ ?_,
    pairwise_insertIdx place ordered.distinct ?_ ?_⟩
  · rw [ordered.hashes, List.map_insertIdx]
  · intro i less y here
    obtain ⟨below, rfl⟩ := slot here
    have order := located.before neg i less
    rw [ordered.hashAt_eq inside below] at order
    exact UInt32.le_iff_toNat_le.mpr (Int.ofNat_le.mp order)
  · intro i ge y here
    obtain ⟨below, rfl⟩ := slot here
    have order := located.behind neg i ge below
    rw [ordered.hashAt_eq inside below] at order
    exact UInt32.le_iff_toNat_le.mpr (Int.ofNat_le.mp order)
  · intro i _ y here
    obtain ⟨below, rfl⟩ := slot here
    exact located.absent neg i below
  · intro i _ y here
    obtain ⟨below, rfl⟩ := slot here
    have apart := located.absent neg i below
    rw [isAt, ← Bool.not_eq_true] at apart
    rw [← Bool.not_eq_true]
    exact fun same => apart (lawful.symm _ _ same)

/-! ## `RemoveAt`, `Clear` and `IncreaseCapacityTo` -/

theorem removeAt_spec (inside : Inside obj) (index : Int) :
    ∃ obj' b, obj.removeAt index = some (obj', b) ∧ obj'.length ≤ obj.length ∧
      obj'.hashes.length = obj.hashes.length ∧ obj'.values.length = obj.values.length := by
  by_cases outside : index < 0 ∨ (obj.length : Int) ≤ index
  · exact ⟨obj, false, if_pos outside, Nat.le_refl _, rfl, rfl⟩
  · have place : index.toNat < obj.length := by omega
    obtain ⟨h, removed, hLength, -⟩ := Slots.removeElementByIndex_spec place inside.hashes
    obtain ⟨v, removed', vLength, -⟩ := Slots.removeElementByIndex_spec place inside.values
    refine ⟨⟨h, v, obj.length - 1⟩, true, ?_, Nat.sub_le _ _, hLength, vLength⟩
    simp only [removeAt, outside, if_false]
    rw [removed]
    simp only [Option.bind_eq_bind, Option.bind_some]
    rw [removed']
    rfl

theorem remove_spec (ops : SetOps α) (roomy : Roomy obj) (value : JSTaggedValue α) :
    ∃ obj' x, obj.remove ops value = some (obj', x) ∧ obj'.length ≤ obj.length ∧
      obj'.hashes.length = obj.hashes.length ∧ obj'.values.length = obj.values.length := by
  obtain ⟨r, search, -, high, -⟩ := getHashIndex_spec ops roomy.inside value
  by_cases absent : r < 0
  · refine ⟨obj, .undefined, ?_, Nat.le_refl _, rfl, rfl⟩
    simp only [remove, search, Option.bind_eq_bind, Option.bind_some, absent, if_true]
    rfl
  · have room := roomy.values
    obtain ⟨obj', b, removed, lengths⟩ := removeAt_spec roomy.inside r
    have read : obj.values[r.toNat]? = some (obj.values.get ⟨r.toNat, by omega⟩) :=
      List.getElem?_eq_getElem (by omega)
    refine ⟨obj', obj.values.get ⟨r.toNat, by omega⟩, ?_, lengths⟩
    simp only [remove, search, Option.bind_eq_bind, Option.bind_some, absent, if_false]
    rw [read]
    simp only [Option.bind_some]
    rw [removed]
    rfl

theorem clear_spec (inside : Inside obj) :
    ∃ obj', obj.clear = some obj' ∧ obj'.length = 0 ∧ obj'.hashes.length = obj.hashes.length ∧
      obj'.values.length = obj.values.length := by
  have hh := inside.hashes
  have hv := inside.values
  obtain ⟨h, filled, hLength, -⟩ := fill_spec .hole obj.length 0 obj.hashes (by omega)
  obtain ⟨v, filled', vLength, -⟩ := fill_spec .hole obj.length 0 obj.values (by omega)
  refine ⟨⟨h, v, 0⟩, ?_, rfl, hLength, vLength⟩
  simp only [clear]
  rw [filled]
  simp only [Option.bind_eq_bind, Option.bind_some]
  rw [filled']
  rfl

theorem increaseCapacityTo_spec (roomy : Roomy obj) (minCapacity : Int) :
    ∃ obj' e, obj.increaseCapacityTo minCapacity = some (obj', e) ∧ Roomy obj' := by
  have le := roomy.hashes
  by_cases refused : minCapacity ≤ 0 ∨ minCapacity ≤ obj.values.length
  · exact ⟨obj, _, if_pos refused, roomy⟩
  · have copied : obj.hashes.newAndCopyTaggedArray minCapacity.toNat obj.values.length =
        some (obj.hashes.take obj.values.length ++
          List.replicate (minCapacity.toNat - obj.values.length) .hole) := if_pos (by omega)
    refine ⟨⟨obj.hashes.take obj.values.length ++
      List.replicate (minCapacity.toNat - obj.values.length) .hole, obj.values, obj.length⟩, none, ?_,
      roomy.values, ?_⟩
    · simp only [increaseCapacityTo, refused, if_false]
      rw [copied]
      rfl
    · simp only [List.length_append, List.length_take, List.length_replicate]
      omega

/-! ## Runs -/

inductive Op (α : Type) where
  | add (value : JSTaggedValue α)
  | remove (value : JSTaggedValue α)
  | removeAt (index : Int)
  | clear
  | increaseCapacityTo (minCapacity : Int)

/-- One operation; `none` where it writes outside an array. -/
def step (ops : SetOps α) (obj : JSAPILightWeightSet α) : Op α → Option (JSAPILightWeightSet α)
  | .add value => (obj.add ops value).map (·.1)
  | .remove value => (obj.remove ops value).map (·.1)
  | .removeAt index => (obj.removeAt index).map (·.1)
  | .clear => obj.clear
  | .increaseCapacityTo minCapacity => (obj.increaseCapacityTo minCapacity).map (·.1)

/-- An absent value is not added when the value array has its last free slot and the hash array has
    more. -/
def KeepsRoom (ops : SetOps α) (obj : JSAPILightWeightSet α) : Op α → Prop
  | .add value => obj.has ops value = some true ∨ obj.length + 1 < obj.values.length ∨
      obj.hashes.length ≤ obj.length + 1
  | _ => True

instance decidableKeepsRoom (ops : SetOps α) (obj : JSAPILightWeightSet α) :
    ∀ o, Decidable (KeepsRoom ops obj o)
  | .add value => inferInstanceAs (Decidable (obj.has ops value = some true ∨
      obj.length + 1 < obj.values.length ∨ obj.hashes.length ≤ obj.length + 1))
  | .remove _ | .removeAt _ | .clear | .increaseCapacityTo _ => isTrue trivial

theorem roomy_construct : Roomy (construct : JSAPILightWeightSet α) :=
  ⟨show 0 < 8 by decide, show 8 ≤ 8 by decide⟩

theorem roomy_step (obj : JSAPILightWeightSet α) (o : Op α) (roomy : Roomy obj)
    (keeps : KeepsRoom ops obj o) : ∃ obj', obj.step ops o = some obj' ∧ Roomy obj' := by
  have room := roomy.values
  have le := roomy.hashes
  cases o with
  | add value =>
    obtain ⟨r, search, -, -, ⟨present, run⟩ | ⟨absent, obj', run, inserted⟩⟩ := add_spec ops roomy value
    · exact ⟨obj, by rw [step, run]; rfl, roomy⟩
    · refine ⟨obj', by rw [step, run]; rfl, ?_⟩
      have hCap := inserted.hashCapacity
      have vCap := inserted.valueCapacity
      have length := inserted.length
      rcases keeps with present | keeps
      · simp [has, search, absent] at present
      · by_cases full : obj.hashes.length ≤ obj.length + 1
        · rw [if_pos full] at hCap vCap
          exact ⟨by omega, by omega⟩
        · rw [if_neg full] at hCap vCap
          exact ⟨by omega, by omega⟩
  | remove value =>
    obtain ⟨obj', x, run, length, hLength, vLength⟩ := remove_spec ops roomy value
    exact ⟨obj', by rw [step, run]; rfl, by omega, by omega⟩
  | removeAt index =>
    obtain ⟨obj', b, run, length, hLength, vLength⟩ := removeAt_spec roomy.inside index
    exact ⟨obj', by rw [step, run]; rfl, by omega, by omega⟩
  | clear =>
    obtain ⟨obj', run, length, hLength, vLength⟩ := clear_spec roomy.inside
    exact ⟨obj', run, by omega, by omega⟩
  | increaseCapacityTo minCapacity =>
    obtain ⟨obj', e, run, roomy'⟩ := increaseCapacityTo_spec roomy minCapacity
    exact ⟨obj', by rw [step, run]; rfl, roomy'⟩

/-- Both arrays have a free slot, so that `Add` stays inside of them. -/
structure Safe (ops : SetOps α) (obj : JSAPILightWeightSet α) : Prop where
  hashes : obj.length < obj.hashes.length
  values : obj.length < obj.values.length
  add : ∀ value, ∃ r, obj.add ops value = some r

theorem safe_of_roomy (ops : SetOps α) (roomy : Roomy obj) : Safe ops obj := by
  refine ⟨Nat.lt_of_lt_of_le roomy.values roomy.hashes, roomy.values, fun value => ?_⟩
  obtain ⟨r, -, -, -, ⟨-, run⟩ | ⟨-, obj', run, -⟩⟩ := add_spec ops roomy value
  · exact ⟨_, run⟩
  · exact ⟨_, run⟩

/-- In a run that never takes the last slot of a value array that is shorter than the hash array, no
    operation leaves the arrays. -/
theorem lightWeightSet_safe_of_run (ops : SetOps α) (operations : List (Op α))
    (keeps : Allowed (step ops) (KeepsRoom ops) construct operations) :
    ∃ obj, run (step ops) construct operations = some obj ∧ Safe ops obj := by
  obtain ⟨obj, reached, roomy⟩ := run_invariant (fun s o inv ok => roomy_step s o inv ok) operations
    construct
    roomy_construct keeps
  exact ⟨obj, reached, safe_of_roomy ops roomy⟩

/-- Integers with their value modulo `2 ^ 32` as their hash, and one other value with the hash 5. -/
def unitOps : SetOps Unit where
  hash
    | .int i => UInt32.ofNat (i % 2 ^ 32).toNat
    | _ => 5
  sameValue x y := x == y
  castNumber _ := 0
  numberIs _ _ := false

theorem lightWeightSet_safe_of_run_increased :
    Allowed (step unitOps) (KeepsRoom unitOps) construct
        [.add (.int 2), .increaseCapacityTo 20, .add (.int 1), .remove (.int 2), .removeAt 0, .clear] ∧
      ∃ obj, run (step unitOps) construct
        [.add (.int 2), .increaseCapacityTo 20, .add (.int 1), .remove (.int 2), .removeAt 0, .clear] =
          some obj ∧ Safe unitOps obj := by
  have keeps : Allowed (step unitOps) (KeepsRoom unitOps) construct
      [.add (.int 2), .increaseCapacityTo 20, .add (.int 1), .remove (.int 2), .removeAt 0, .clear] := by
    decide +kernel
  exact ⟨keeps, lightWeightSet_safe_of_run unitOps _ keeps⟩

/-- The hash array has 100 slots after `IncreaseCapacityTo(100)`, the value array still 8. -/
theorem lightWeightSet_unsafe_after_increase :
    ∃ obj, run (step unitOps) construct (.increaseCapacityTo 100 ::
        [1, 2, 3, 4, 5, 6, 7, 8].map fun i => .add (.int i)) = some obj ∧
      ¬ obj.length < obj.values.length ∧ obj.add unitOps (.int 0) = none ∧ ¬ Safe unitOps obj := by
  have computed : (run (step unitOps) construct (.increaseCapacityTo 100 ::
      [1, 2, 3, 4, 5, 6, 7, 8].map fun i => .add (.int i))).map (fun obj => (obj.length,
        obj.values.length, (obj.add unitOps (.int 0)).isNone)) = some (8, 8, true) := by
    decide +kernel
  obtain ⟨obj, reached, values⟩ := Option.map_eq_some_iff.mp computed
  simp only [Prod.mk.injEq, Option.isNone_iff_eq_none] at values
  obtain ⟨length, slots, outside⟩ := values
  refine ⟨obj, reached, by omega, outside, fun safe => ?_⟩
  have := safe.values
  omega

end JSAPILightWeightSet

end ArkRuntime
