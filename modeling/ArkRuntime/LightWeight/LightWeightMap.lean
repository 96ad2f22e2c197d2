import ArkRuntime.LightWeight.MapSearch
import ArkRuntime.Misc.Run
import Mathlib.Data.Fintype.Card

/-!
# `LightWeightMap` is a finite map

Every operation keeps the invariant of the arrays, so it holds for every map of every run; and what is
read from a map that satisfies it is what its keys and values say.
-/

namespace ArkRuntime

namespace JSAPILightWeightMap

variable {α : Type} {ops : MapOps α} {map : JSAPILightWeightMap α} {key value : JSTaggedValue α}

/-! ## The arrays -/

theorem le_computeCapacity (c : Nat) : c ≤ computeCapacity c := by
  have le := Nat.le_add_right c (c >>> 1)
  rw [computeCapacity]
  split_ifs <;> omega

theorem growCapacity_spec (a : Slots α) (needCapacity : Nat) :
    ∃ a', growCapacity a needCapacity = some a' ∧ needCapacity ≤ a'.length ∧ a.length ≤ a'.length ∧
      ∀ n ≤ a.length, a'.take n = a.take n := by
  by_cases fits : needCapacity ≤ a.length
  · exact ⟨a, if_pos fits, fits, Nat.le_refl _, fun _ _ => rfl⟩
  · have le := le_computeCapacity needCapacity
    obtain ⟨a', copied, length, slots⟩ := Slots.copyArray_longer (a := a)
      (show a.length < computeCapacity needCapacity by omega) (by omega)
    exact ⟨a', by rw [growCapacity, if_neg fits, copied], by omega, by omega, slots⟩

variable {p i : Nat} {v : Slots α} {newMap : JSAPILightWeightMap α}

/-- A slot more at `p` in one of the arrays. -/
theorem insertValue_spec (map : JSAPILightWeightMap α) (kind : AccossorsKind) (x : JSTaggedValue α)
    (place : p ≤ map.length) (inside : map.length ≤ (map.getArrayByKind kind).length) :
    ∃ a, map.insertValue p x kind = some (map.setArrayByKind a kind) ∧ map.length + 1 ≤ a.length ∧
      a.take (map.length + 1) = ((map.getArrayByKind kind).take map.length).insertIdx p x := by
  obtain ⟨grown, run, room, -, slots⟩ := growCapacity_spec (map.getArrayByKind kind) (map.length + 1)
  obtain ⟨a, run', length, content⟩ := Slots.insertElementByIndex_spec x place
    (show map.length < grown.length by omega)
  refine ⟨a, ?_, by omega, ?_⟩
  · simp only [insertValue, run, Option.bind_eq_bind, Option.bind_some]
    rw [run']
    rfl
  · rw [content, slots _ inside]

theorem removeValue_spec (map : JSAPILightWeightMap α) (kind : AccossorsKind) (place : p < map.length)
    (inside : map.length ≤ (map.getArrayByKind kind).length) :
    ∃ a, map.removeValue p kind = some (map.setArrayByKind a kind) ∧
      a.length = (map.getArrayByKind kind).length ∧
      a.take (map.length - 1) = ((map.getArrayByKind kind).take map.length).eraseIdx p := by
  obtain ⟨a, run, length, content⟩ := Slots.removeElementByIndex_spec place inside
  refine ⟨a, ?_, length, content⟩
  simp only [removeValue]
  rw [run]
  rfl

/-! ## The invariant -/

theorem wellFormed_construct : WellFormed ops (construct : JSAPILightWeightMap α) :=
  ⟨Nat.zero_le _, Nat.zero_le _, Nat.zero_le _, rfl, List.Pairwise.nil, List.Pairwise.nil⟩

/-- A key that is absent goes to the place where the search says that it belongs. -/
theorem WellFormed.insert (lawful : ops.Lawful) (wellFormed : WellFormed ops map)
    (finds : Finds ops map key false p) {h k : Slots α} (inHashes : map.length + 1 ≤ h.length)
    (inKeys : map.length + 1 ≤ k.length) (inValues : map.length + 1 ≤ v.length)
    (hashes : h.take (map.length + 1) = (map.hashes.take map.length).insertIdx p (.int (ops.hash key)))
    (keys : k.take (map.length + 1) = map.entryKeys.insertIdx p key) :
    WellFormed ops ⟨h, k, v, map.length + 1⟩ := by
  rcases finds with _ | ⟨place, none, before, behind⟩
  have bound : p ≤ map.entryKeys.length := by rwa [wellFormed.length_entryKeys]
  have slot {i : Nat} {y : JSTaggedValue α} (here : map.entryKeys[i]? = some y) :
      i < map.length ∧ map.keyAt i = y := by
    have below : i < map.length := by
      rw [← wellFormed.length_entryKeys]
      exact (List.getElem?_eq_some_iff.mp here).1
    rw [wellFormed.getElem?_entryKeys below, Option.some.injEq] at here
    exact ⟨below, here⟩
  have entries : entryKeys ⟨h, k, v, map.length + 1⟩ = map.entryKeys.insertIdx p key := keys
  refine ⟨inHashes, inKeys, inValues, ?_, ?_, ?_⟩ <;> rw [entries]
  · exact hashes.trans (by rw [wellFormed.hashes, List.map_insertIdx])
  · refine pairwise_insertIdx bound wellFormed.sorted (fun i less y here => ?_) (fun i ge y here => ?_)
    · obtain ⟨below, rfl⟩ := slot here
      rw [← wellFormed.hashAt_eq below]
      exact before i less
    · obtain ⟨below, rfl⟩ := slot here
      rw [← wellFormed.hashAt_eq below]
      exact behind i ge below
  · refine pairwise_insertIdx bound wellFormed.distinct (fun i _ y here => ?_) (fun i _ y here => ?_)
    · obtain ⟨below, rfl⟩ := slot here
      exact none i below
    · obtain ⟨below, rfl⟩ := slot here
      rw [← Bool.not_eq_true]
      intro same
      have apart := none i below
      rw [lawful.symm _ _ same] at apart
      cases apart

theorem WellFormed.erase (wellFormed : WellFormed ops map) {h k : Slots α}
    (inHashes : h.length = map.hashes.length) (inKeys : k.length = map.keys.length)
    (inValues : v.length = map.values.length)
    (hashes : h.take (map.length - 1) = (map.hashes.take map.length).eraseIdx p)
    (keys : k.take (map.length - 1) = map.entryKeys.eraseIdx p) :
    WellFormed ops ⟨h, k, v, map.length - 1⟩ := by
  have hh := wellFormed.inHashes
  have hk := wellFormed.inKeys
  have hv := wellFormed.inValues
  have entries : entryKeys ⟨h, k, v, map.length - 1⟩ = map.entryKeys.eraseIdx p := keys
  refine ⟨?_, ?_, ?_, ?_, ?_, ?_⟩
  · simp only
    omega
  · simp only
    omega
  · simp only
    omega
  · rw [entries]
    exact hashes.trans (by rw [wellFormed.hashes, List.eraseIdx_map])
  · rw [entries]
    exact wellFormed.sorted.eraseIdx p
  · rw [entries]
    exact wellFormed.distinct.eraseIdx p

/-- The values are not part of the order. -/
theorem WellFormed.withValues (wellFormed : WellFormed ops map) (inValues : map.length ≤ v.length) :
    WellFormed ops { map with values := v } :=
  ⟨wellFormed.inHashes, wellFormed.inKeys, inValues, wellFormed.hashes, wellFormed.sorted,
    wellFormed.distinct⟩

theorem replaceValue_spec (wellFormed : WellFormed ops map) (below : i < map.length) (value : JSTaggedValue α) :
    ∃ map', map.replaceValue i value .value = some map' ∧ WellFormed ops map' ∧
      map'.keys = map.keys ∧ map'.length = map.length := by
  have inside := wellFormed.inValues
  refine ⟨{ map with values := map.values.set i value }, ?_, ?_, rfl, rfl⟩
  · simp only [replaceValue, getArrayByKind]
    rw [store_of_lt (by omega)]
    rfl
  · exact wellFormed.withValues (by rw [List.length_set]; exact inside)

/-! ## The operations -/

theorem set_spec (lawful : ops.Lawful) (wellFormed : WellFormed ops map) (key value : JSTaggedValue α) :
    ∃ map', map.set ops key value = some map' ∧ WellFormed ops map' ∧
      ((∃ i < map.length, ops.sameValue (map.keyAt i) key = true) →
        map'.keys = map.keys ∧ map'.length = map.length) := by
  obtain ⟨existed, p, state, finds⟩ := getStateOfKey_spec lawful wellFormed key
  cases existed with
  | true =>
    cases finds with
    | present below same =>
      obtain ⟨map', replaced, wellFormed', keys, length⟩ := replaceValue_spec wellFormed below value
      refine ⟨map', ?_, wellFormed', fun _ => ⟨keys, length⟩⟩
      simp only [set, state, Option.bind_eq_bind, Option.bind_some, if_true, Int.toNat_natCast]
      exact replaced
  | false =>
    have place : p ≤ map.length := by
      cases finds with
      | absent place => exact place
    obtain ⟨h, first, inHashes, hashes⟩ := insertValue_spec map .hash (.int (ops.hash key)) place
      wellFormed.inHashes
    obtain ⟨k, second, inKeys, keys⟩ := insertValue_spec (map.setArrayByKind h .hash) .key key place
      wellFormed.inKeys
    obtain ⟨v, third, inValues, -⟩ := insertValue_spec ((map.setArrayByKind h .hash).setArrayByKind k .key)
      .value value place wellFormed.inValues
    refine ⟨⟨h, k, v, map.length + 1⟩, ?_,
      wellFormed.insert lawful finds inHashes inKeys inValues hashes keys, ?_⟩
    · simp only [set, state, Option.bind_eq_bind, Option.bind_some, Bool.false_eq_true, if_false,
        Int.toNat_natCast, first, second, third]
      rfl
    · rintro ⟨i, below, same⟩
      cases finds with
      | absent _ none =>
        rw [none i below] at same
        cases same

theorem removeEntry_spec (wellFormed : WellFormed ops map) (place : p < map.length) :
    ∃ map', map.removeEntry p = some map' ∧ WellFormed ops map' := by
  obtain ⟨h, first, inHashes, hashes⟩ := removeValue_spec map .hash place wellFormed.inHashes
  obtain ⟨v, second, inValues, -⟩ := removeValue_spec (map.setArrayByKind h .hash) .value place
    wellFormed.inValues
  obtain ⟨k, third, inKeys, keys⟩ := removeValue_spec
    ((map.setArrayByKind h .hash).setArrayByKind v .value) .key place wellFormed.inKeys
  refine ⟨⟨h, k, v, map.length - 1⟩, ?_, wellFormed.erase inHashes inKeys inValues hashes keys⟩
  simp only [removeEntry, first, second, third, Option.bind_eq_bind, Option.bind_some]
  rfl

theorem remove_spec (lawful : ops.Lawful) (wellFormed : WellFormed ops map) (key : JSTaggedValue α) :
    ∃ map' x, map.remove ops key = some (map', x) ∧ WellFormed ops map' := by
  obtain ⟨existed, p, state, finds⟩ := getStateOfKey_spec lawful wellFormed key
  cases finds with
  | present below same =>
    have inside := wellFormed.inValues
    obtain ⟨map', removed, wellFormed'⟩ := removeEntry_spec wellFormed below
    refine ⟨map', map.values.getD p .hole, ?_, wellFormed'⟩
    simp only [remove, state, Option.bind_eq_bind, Option.bind_some, Bool.not_true, Bool.false_eq_true,
      if_false, Int.toNat_natCast, getElem?_eq_getD (show p < map.values.length by omega) .hole, removed]
    rfl
  | absent =>
    refine ⟨map, .undefined, ?_, wellFormed⟩
    simp only [remove, state, Option.bind_eq_bind, Option.bind_some, Bool.not_false, if_true]
    rfl

theorem removeAt_spec (wellFormed : WellFormed ops map) (index : Int) :
    ∃ map' b, map.removeAt index = some (map', b) ∧ WellFormed ops map' := by
  by_cases outside : index < 0 ∨ (map.length : Int) ≤ index
  · exact ⟨map, false, if_pos outside, wellFormed⟩
  · obtain ⟨map', removed, wellFormed'⟩ := removeEntry_spec wellFormed
      (show index.toNat < map.length by omega)
    refine ⟨map', true, ?_, wellFormed'⟩
    simp only [removeAt, outside, if_false]
    rw [removed]
    rfl

theorem increaseCapacityTo_spec (wellFormed : WellFormed ops map) (index : Int) :
    ∃ map' b, map.increaseCapacityTo index = some (map', b) ∧ WellFormed ops map' := by
  by_cases refused : index < defaultCapacityLength ∨ index ≤ map.length
  · exact ⟨map, false, if_pos refused, wellFormed⟩
  · obtain ⟨h, first, -, inHashes, hashes⟩ := growCapacity_spec map.hashes index.toNat
    obtain ⟨k, second, -, inKeys, keys⟩ := growCapacity_spec map.keys index.toNat
    obtain ⟨v, third, -, inValues, -⟩ := growCapacity_spec map.values index.toNat
    have hh := wellFormed.inHashes
    have hk := wellFormed.inKeys
    have hv := wellFormed.inValues
    have entries : entryKeys ⟨h, k, v, map.length⟩ = map.entryKeys := keys _ hk
    refine ⟨⟨h, k, v, map.length⟩, true, ?_, Nat.le_trans hh inHashes, Nat.le_trans hk inKeys,
      Nat.le_trans hv inValues, ?_, ?_, ?_⟩
    · simp only [increaseCapacityTo, refused, if_false]
      rw [first, second, third]
      rfl
    · rw [entries]
      exact (hashes _ hh).trans wellFormed.hashes
    · rw [entries]
      exact wellFormed.sorted
    · rw [entries]
      exact wellFormed.distinct

theorem setValueAt_spec (wellFormed : WellFormed ops map) (index : Int) (value : JSTaggedValue α) :
    ∃ r, map.setValueAt index value = some r ∧ ∀ map', r = .ok map' → WellFormed ops map' := by
  by_cases outside : index < 0 ∨ (map.length : Int) ≤ index
  · refine ⟨_, if_pos outside, fun map' no => ?_⟩
    cases no
  · obtain ⟨map', replaced, wellFormed', -⟩ := replaceValue_spec wellFormed
      (show index.toNat < map.length by omega) value
    refine ⟨.ok map', ?_, fun map'' same => ?_⟩
    · simp only [setValueAt, outside, if_false, replaced, Option.map_some]
    · cases same
      exact wellFormed'

/-! ## `SetAll` -/

theorem update_wellFormed {heap : Heap α} (all : ∀ a, WellFormed ops (heap a)) (a : Nat)
    (wellFormed : WellFormed ops map) : ∀ b, WellFormed ops (Function.update heap a map b) := by
  intro b
  by_cases here : b = a
  · rw [here, Function.update_self]
    exact wellFormed
  · rw [Function.update_of_ne here]
    exact all b

/-- Neither map loses the slots that are still to be read. -/
theorem setAllFrom_spec (lawful : ops.Lawful) (target source : Nat) (n num : Nat) (heap : Heap α)
    (all : ∀ a, WellFormed ops (heap a)) (rest : num + n ≤ (heap source).length) :
    ∃ heap', setAllFrom ops target source n num heap = some heap' ∧ ∀ a, WellFormed ops (heap' a) := by
  induction n generalizing num heap with
  | zero => exact ⟨heap, rfl, all⟩
  | succ n ih =>
    have below : num < (heap source).length := by omega
    have inside := (all source).inValues
    obtain ⟨result, run, wellFormed, kept⟩ := set_spec lawful (all target) ((heap source).keyAt num)
      ((heap source).values.getD num .hole)
    have length : (Function.update heap target result source).length = (heap source).length := by
      by_cases same : source = target
      · subst same
        rw [Function.update_self]
        exact (kept ⟨num, below, lawful.refl _⟩).2
      · rw [Function.update_of_ne same]
    obtain ⟨heap', loop, all'⟩ := ih (num + 1) (Function.update heap target result)
      (update_wellFormed all target wellFormed) (by omega)
    refine ⟨heap', ?_, all'⟩
    simp only [setAllFrom, (all source).getElem?_keys below,
      getElem?_eq_getD (show num < (heap source).values.length by omega) .hole, Option.bind_eq_bind,
      Option.bind_some, run]
    exact loop

/-! ## Reading -/

/-- The key and the value at an index in use. -/
structure Entry (map : JSAPILightWeightMap α) (i : Nat) (k v : JSTaggedValue α) : Prop where
  below : i < map.length
  key : map.keys[i]? = some k
  value : map.values[i]? = some v

theorem Entry.keyAt_eq {k v : JSTaggedValue α} (wellFormed : WellFormed ops map) (entry : Entry map i k v) :
    map.keyAt i = k := by
  have here := entry.key
  rw [wellFormed.getElem?_keys entry.below, Option.some.injEq] at here
  exact here

theorem WellFormed.entry (wellFormed : WellFormed ops map) (below : i < map.length) :
    Entry map i (map.keyAt i) (map.values.getD i .hole) := by
  have inside := wellFormed.inValues
  exact ⟨below, wellFormed.getElem?_keys below, getElem?_eq_getD (by omega) _⟩

theorem get_present (lawful : ops.Lawful) (wellFormed : WellFormed ops map) {k v : JSTaggedValue α}
    (entry : Entry map i k v) (same : ops.sameValue k key = true) :
    map.get ops key = some v ∧ map.hasKey ops key = some true ∧
      map.getIndexOfKey ops key = some (i : Int) := by
  rw [← entry.keyAt_eq wellFormed] at same
  obtain ⟨existed, p, state, finds⟩ := getStateOfKey_spec lawful wellFormed key
  cases finds with
  | present below is =>
    obtain rfl : p = i := by
      apply wellFormed.keyAt_inj lawful below entry.below
      exact lawful.trans _ _ _ is (lawful.symm _ _ same)
    have index : map.getIndexOfKey ops key = some (p : Int) := by
      simp [getIndexOfKey, state]
    refine ⟨?_, by simp [hasKey, state], index⟩
    have nonneg : ¬ ((p : Int) < 0) := by omega
    simp only [get, index, Option.bind_eq_bind, Option.bind_some, nonneg, if_false, Int.toNat_natCast]
    exact entry.value
  | absent _ none =>
    rw [none i entry.below] at same
    cases same

theorem get_absent (lawful : ops.Lawful) (wellFormed : WellFormed ops map)
    (none : ∀ i k v, Entry map i k v → ops.sameValue k key = false) :
    map.get ops key = some .undefined ∧ map.hasKey ops key = some false ∧
      map.getIndexOfKey ops key = some (-1) := by
  obtain ⟨existed, p, state, finds⟩ := getStateOfKey_spec lawful wellFormed key
  cases finds with
  | present below is =>
    rw [none p _ _ (wellFormed.entry below)] at is
    cases is
  | absent =>
    have index : map.getIndexOfKey ops key = some (-1) := by
      simp [getIndexOfKey, state]
    refine ⟨?_, by simp [hasKey, state], index⟩
    simp [get, index]

/-- The map has the entry, up to `SameValue`. -/
def HasEntry (ops : MapOps α) (map : JSAPILightWeightMap α) (k v : JSTaggedValue α) : Prop :=
  ∃ i k' v', Entry map i k' v' ∧ ops.sameValue k' k = true ∧ ops.sameValue v' v = true

theorem hasAllFrom_spec (lawful : ops.Lawful) (wellFormed : WellFormed ops map)
    (wellFormed' : WellFormed ops newMap) (n num : Nat) (rest : num + n = newMap.length) :
    ∃ b, hasAllFrom ops map newMap n num = some b ∧
      (b = true ↔ ∀ j k v, num ≤ j → Entry newMap j k v → HasEntry ops map k v) := by
  induction n generalizing num with
  | zero =>
    refine ⟨true, rfl, fun _ j k v ge entry => ?_, fun _ => rfl⟩
    have := entry.below
    omega
  | succ n ih =>
    have below : num < newMap.length := by omega
    have entry := wellFormed'.entry below
    have step : ∃ b, hasAllFrom ops map newMap (n + 1) num = some b ∧
        (b = true ↔ HasEntry ops map (newMap.keyAt num) (newMap.values.getD num .hole) ∧
          ∀ j k v, num + 1 ≤ j → Entry newMap j k v → HasEntry ops map k v) := by
      obtain ⟨r, search, ⟨index, inside, rfl, here⟩ | ⟨p, rfl, finds⟩⟩ :=
        binarySearchHashes_spec lawful wellFormed (newMap.keyAt num)
      · obtain ⟨i, avoid, less, found⟩ := avoidHashCollision_spec lawful wellFormed inside here
        have entry' := wellFormed.entry less
        have keep : ¬ ((index : Int) < 0 ∨ (map.length : Int) ≤ index) := by omega
        have nonneg : ¬ ((i : Int) < 0) := by omega
        obtain ⟨b, loop, spec⟩ := ih (num + 1) (by omega)
        simp only [hasAllFrom, entry.key, entry.value, search, avoid, keep, nonneg, if_false,
          Int.toNat_natCast, entry'.key, entry'.value, Option.bind_eq_bind, Option.bind_some]
        by_cases both : ops.sameValue (map.keyAt i) (newMap.keyAt num) = true ∧
            ops.sameValue (map.values.getD i .hole) (newMap.values.getD num .hole) = true
        · refine ⟨b, ?_, ?_⟩
          · simp only [both.1, both.2, Bool.not_true, Bool.or_self, Bool.false_eq_true, if_false]
            exact loop
          · rw [spec]
            exact ⟨fun more => ⟨⟨i, _, _, entry', both.1, both.2⟩, more⟩, And.right⟩
        · refine ⟨false, ?_, (fun no => by cases no), ?_⟩
          · rw [if_pos]
            · rfl
            · rw [Bool.or_eq_true, Bool.not_eq_true', Bool.not_eq_true', ← Bool.not_eq_true,
                ← Bool.not_eq_true]
              exact not_and_or.mp both
          · rintro ⟨⟨j, k', v', there, same, same'⟩, -⟩
            refine absurd ?_ both
            rw [← there.keyAt_eq wellFormed] at same
            have place : i = j := by
              rcases found with is | none
              · apply wellFormed.keyAt_inj lawful less there.below
                exact lawful.trans _ _ _ is (lawful.symm _ _ same)
              · rw [none j there.below] at same
                cases same
            subst place
            have value := there.value
            rw [entry'.value, Option.some.injEq] at value
            rw [value]
            exact ⟨same, same'⟩
      · have out : -((p : Int) + 1) < 0 ∨ (map.length : Int) ≤ -((p : Int) + 1) := by omega
        refine ⟨false, ?_, (fun no => by cases no), ?_⟩
        · simp only [hasAllFrom, entry.key, search, out, if_true, Option.bind_eq_bind, Option.bind_some]
          rfl
        · rintro ⟨⟨j, k', v', there, same, -⟩, -⟩
          rw [← there.keyAt_eq wellFormed] at same
          cases finds with
          | absent _ none =>
            rw [none j there.below] at same
            cases same
    obtain ⟨b, run, spec⟩ := step
    refine ⟨b, run, spec.trans ⟨?_, fun all => ⟨?_, fun j k v ge => all j k v (by omega)⟩⟩⟩
    · rintro ⟨first, more⟩ j k v ge there
      rcases Nat.eq_or_lt_of_le ge with rfl | behind
      · have key := there.key
        have value := there.value
        rw [entry.key, Option.some.injEq] at key
        rw [entry.value, Option.some.injEq] at value
        rwa [← key, ← value]
      · exact more j k v behind there
    · exact all num _ _ (Nat.le_refl _) entry

/-- A map with more entries has a key that the other map has not. -/
theorem length_le_of_entries (lawful : ops.Lawful) (wellFormed : WellFormed ops map)
    (wellFormed' : WellFormed ops newMap) (all : ∀ j k v, Entry newMap j k v → HasEntry ops map k v) :
    newMap.length ≤ map.length := by
  have place (j : Fin newMap.length) : ∃ i : Fin map.length,
      ops.sameValue (map.keyAt i) (newMap.keyAt j) = true := by
    obtain ⟨i, k', v', there, same, -⟩ := all j _ _ (wellFormed'.entry j.isLt)
    exact ⟨⟨i, there.below⟩, by rw [there.keyAt_eq wellFormed]; exact same⟩
  choose f spec using place
  have injective : Function.Injective f := by
    intro a b same
    have first := spec a
    rw [same] at first
    have keys := lawful.trans _ _ _ (lawful.symm _ _ first) (spec b)
    exact Fin.ext (wellFormed'.keyAt_inj lawful a.isLt b.isLt keys)
  simpa using Fintype.card_le_of_injective f injective

theorem hasAll_spec (lawful : ops.Lawful) (wellFormed : WellFormed ops map)
    (wellFormed' : WellFormed ops newMap) :
    ∃ b, map.hasAll ops newMap = some b ∧
      (b = true ↔ ∀ j k v, Entry newMap j k v → HasEntry ops map k v) := by
  by_cases more : map.length < newMap.length
  · refine ⟨false, if_pos more, (fun no => by cases no), fun all => ?_⟩
    have := length_le_of_entries lawful wellFormed wellFormed' all
    omega
  · obtain ⟨b, loop, spec⟩ := hasAllFrom_spec lawful wellFormed wellFormed' newMap.length 0
      (Nat.zero_add _)
    refine ⟨b, by rw [hasAll, if_neg more, loop], spec.trans ?_⟩
    exact ⟨fun all j k v => all j k v (Nat.zero_le j), fun all j k v _ => all j k v⟩

/-! ## Runs -/

inductive Op (α : Type) where
  | set (map : Nat) (key value : JSTaggedValue α)
  | setAll (map needMap : Nat)
  | remove (map : Nat) (key : JSTaggedValue α)
  | removeAt (map : Nat) (index : Int)
  | setValueAt (map : Nat) (index : Int) (value : JSTaggedValue α)
  | increaseCapacityTo (map : Nat) (index : Int)
  | clear (map : Nat)

/-- One operation on one of the maps; `none` where it leaves an array. -/
def step (ops : MapOps α) (heap : Heap α) : Op α → Option (Heap α)
  | .set map key value => ((heap map).set ops key value).map (Function.update heap map)
  | .setAll map needMap => setAll ops heap map needMap
  | .remove map key => ((heap map).remove ops key).map fun r => Function.update heap map r.1
  | .removeAt map index => ((heap map).removeAt index).map fun r => Function.update heap map r.1
  | .setValueAt map index value => ((heap map).setValueAt index value).map fun
      | .ok result => Function.update heap map result
      | .error _ => heap
  | .increaseCapacityTo map index =>
      ((heap map).increaseCapacityTo index).map fun r => Function.update heap map r.1
  | .clear map => some (Function.update heap map (heap map).clear)

/-- What is read from a map agrees with its entries. -/
structure Agrees (ops : MapOps α) (map : JSAPILightWeightMap α) : Prop where
  present : ∀ key i k v, Entry map i k v → ops.sameValue k key = true →
    map.get ops key = some v ∧ map.hasKey ops key = some true ∧
      map.getIndexOfKey ops key = some (i : Int)
  absent : ∀ key, (∀ i k v, Entry map i k v → ops.sameValue k key = false) →
    map.get ops key = some .undefined ∧ map.hasKey ops key = some false ∧
      map.getIndexOfKey ops key = some (-1)

theorem agrees_of_wellFormed (lawful : ops.Lawful) (wellFormed : WellFormed ops map) :
    Agrees ops map :=
  ⟨fun _ _ _ _ entry same => get_present lawful wellFormed entry same,
    fun _ none => get_absent lawful wellFormed none⟩

theorem wellFormed_step (lawful : ops.Lawful) (heap : Heap α) (o : Op α)
    (all : ∀ a, WellFormed ops (heap a)) :
    ∃ heap', step ops heap o = some heap' ∧ ∀ a, WellFormed ops (heap' a) := by
  cases o with
  | set map key value =>
    obtain ⟨map', run, wellFormed, -⟩ := set_spec lawful (all map) key value
    exact ⟨_, by rw [step, run]; rfl, update_wellFormed all map wellFormed⟩
  | setAll map needMap =>
    exact setAllFrom_spec lawful map needMap (heap needMap).length 0 heap all (by omega)
  | remove map key =>
    obtain ⟨map', x, run, wellFormed⟩ := remove_spec lawful (all map) key
    exact ⟨_, by rw [step, run]; rfl, update_wellFormed all map wellFormed⟩
  | removeAt map index =>
    obtain ⟨map', b, run, wellFormed⟩ := removeAt_spec (all map) index
    exact ⟨_, by rw [step, run]; rfl, update_wellFormed all map wellFormed⟩
  | setValueAt map index value =>
    obtain ⟨r, run, wellFormed⟩ := setValueAt_spec (all map) index value
    cases r with
    | error e => exact ⟨heap, by rw [step, run]; rfl, all⟩
    | ok map' => exact ⟨_, by rw [step, run]; rfl, update_wellFormed all map (wellFormed map' rfl)⟩
  | increaseCapacityTo map index =>
    obtain ⟨map', b, run, wellFormed⟩ := increaseCapacityTo_spec (all map) index
    exact ⟨_, by rw [step, run]; rfl, update_wellFormed all map wellFormed⟩
  | clear map => exact ⟨_, rfl, update_wellFormed all map wellFormed_construct⟩

/-- In every run, over any number of maps, every map is well formed and is read as the finite map that
    its arrays hold. -/
theorem lightWeightMap_of_run (ops : MapOps α) (lawful : ops.Lawful) (operations : List (Op α)) :
    ∃ heap, run (step ops) (fun _ => construct) operations = some heap ∧
      ∀ a, WellFormed ops (heap a) ∧ Agrees ops (heap a) ∧
        ∀ b, ∃ r, (heap a).hasAll ops (heap b) = some r ∧
          (r = true ↔ ∀ j k v, Entry (heap b) j k v → HasEntry ops (heap a) k v) := by
  obtain ⟨heap, reached, all⟩ := run_invariant (I := fun heap : Heap α => ∀ a, WellFormed ops (heap a))
    (fun heap o all _ => wellFormed_step lawful heap o all) operations (fun _ => construct)
    (fun _ => wellFormed_construct) (allowed_of_forall (P := fun _ => True) (fun _ _ => trivial))
  exact ⟨heap, reached, fun a => ⟨all a, agrees_of_wellFormed lawful (all a),
    fun b => hasAll_spec lawful (all a) (all b)⟩⟩

/-- Integers with the remainder modulo 2 as their hash. -/
def parityOps : MapOps Unit where
  hash v := v.getInt % 2
  sameValue x y := x == y

theorem lawful_parityOps : parityOps.Lawful := by
  refine ⟨fun x => ?_, fun x y same => ?_, fun x y z first second => ?_, fun x y same => ?_⟩
  · exact beq_self_eq_true x
  · exact beq_iff_eq.mpr (beq_iff_eq.mp same).symm
  · exact beq_iff_eq.mpr ((beq_iff_eq.mp first).trans (beq_iff_eq.mp second))
  · rw [beq_iff_eq.mp same]

theorem lightWeightMap_of_run_collisions :
    parityOps.Lawful ∧ ∃ heap, run (step parityOps) (fun _ => construct)
        [.set 0 (.int 1) (.int 7), .set 0 (.int 3) (.int 8), .set 0 (.int 2) (.int 9), .setAll 1 0,
          .setAll 1 1, .remove 1 (.int 1)] = some heap ∧
      ∀ a, WellFormed parityOps (heap a) ∧ Agrees parityOps (heap a) ∧
        ∀ b, ∃ r, (heap a).hasAll parityOps (heap b) = some r ∧
          (r = true ↔ ∀ j k v, Entry (heap b) j k v → HasEntry parityOps (heap a) k v) :=
  ⟨lawful_parityOps, lightWeightMap_of_run parityOps lawful_parityOps _⟩

end JSAPILightWeightMap

end ArkRuntime
