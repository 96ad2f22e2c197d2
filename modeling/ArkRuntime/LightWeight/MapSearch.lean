import ArkRuntime.LightWeight.MapModel

/-!
# The search of `LightWeightMap`

The invariant of the three arrays, and what `GetStateOfKey` and `AvoidHashCollision` find in them.
-/

namespace ArkRuntime

variable {α : Type}

/-- `SameValue` is an equivalence and equal keys have the same hash. -/
structure MapOps.Lawful (ops : MapOps α) : Prop where
  refl : ∀ x, ops.sameValue x x = true
  symm : ∀ x y, ops.sameValue x y = true → ops.sameValue y x = true
  trans : ∀ x y z, ops.sameValue x y = true → ops.sameValue y z = true → ops.sameValue x z = true
  hash : ∀ x y, ops.sameValue x y = true → ops.hash x = ops.hash y

namespace JSAPILightWeightMap

/-- The keys in use. -/
def entryKeys (map : JSAPILightWeightMap α) : Slots α := map.keys.take map.length

/-- The slots in use are inside the arrays; the hashes are those of the keys, ascending, and no key
    occurs twice. -/
structure WellFormed (ops : MapOps α) (map : JSAPILightWeightMap α) : Prop where
  inHashes : map.length ≤ map.hashes.length
  inKeys : map.length ≤ map.keys.length
  inValues : map.length ≤ map.values.length
  hashes : map.hashes.take map.length = map.entryKeys.map fun k => .int (ops.hash k)
  sorted : map.entryKeys.Pairwise fun x y => ops.hash x ≤ ops.hash y
  distinct : map.entryKeys.Pairwise fun x y => ops.sameValue x y = false

variable {ops : MapOps α} {map : JSAPILightWeightMap α} {key : JSTaggedValue α}

def keyAt (map : JSAPILightWeightMap α) (i : Nat) : JSTaggedValue α := map.keys.getD i .hole

def hashAt (map : JSAPILightWeightMap α) (i : Nat) : Int := (map.hashes.getD i .hole).getInt

variable {i : Nat}

theorem getElem?_eq_getD {β : Type} {a : List β} (below : i < a.length) (d : β) :
    a[i]? = some (a.getD i d) := by
  rw [List.getD_eq_getElem?_getD, List.getElem?_eq_getElem below]
  rfl

theorem WellFormed.length_entryKeys (wellFormed : WellFormed ops map) :
    map.entryKeys.length = map.length := by
  rw [entryKeys, List.length_take]
  exact Nat.min_eq_left wellFormed.inKeys

theorem WellFormed.getElem?_keys (wellFormed : WellFormed ops map) (below : i < map.length) :
    map.keys[i]? = some (map.keyAt i) :=
  getElem?_eq_getD (Nat.lt_of_lt_of_le below wellFormed.inKeys) _

theorem WellFormed.getElem?_entryKeys (wellFormed : WellFormed ops map) (below : i < map.length) :
    map.entryKeys[i]? = some (map.keyAt i) := by
  rw [entryKeys, List.getElem?_take_of_lt below, wellFormed.getElem?_keys below]

theorem WellFormed.slot (wellFormed : WellFormed ops map) (below : i < map.length) :
    map.hashes[i]? = some (.int (ops.hash (map.keyAt i))) := by
  have here := congrArg (fun l => l[i]?) wellFormed.hashes
  simp only [List.getElem?_map, wellFormed.getElem?_entryKeys below, Option.map_some,
    List.getElem?_take_of_lt below] at here
  exact here

theorem WellFormed.hashAt_eq (wellFormed : WellFormed ops map) (below : i < map.length) :
    map.hashAt i = ops.hash (map.keyAt i) := by
  rw [hashAt, List.getD_eq_getElem?_getD, wellFormed.slot below]
  rfl

theorem WellFormed.pair {R : JSTaggedValue α → JSTaggedValue α → Prop} (wellFormed : WellFormed ops map)
    (all : map.entryKeys.Pairwise R) {j : Nat} (less : i < j) (below : j < map.length) :
    R (map.keyAt i) (map.keyAt j) := by
  have length := wellFormed.length_entryKeys
  have pair := List.pairwise_iff_getElem.mp all i j (by omega) (by omega) less
  have first := wellFormed.getElem?_entryKeys (show i < map.length by omega)
  have second := wellFormed.getElem?_entryKeys below
  rw [List.getElem?_eq_getElem (by omega), Option.some.injEq] at first second
  rwa [first, second] at pair

theorem WellFormed.ascending (wellFormed : WellFormed ops map) : Ascending map.hashAt map.length := by
  intro i j le below
  rcases Nat.lt_or_eq_of_le le with less | rfl
  · rw [wellFormed.hashAt_eq (by omega), wellFormed.hashAt_eq below]
    exact wellFormed.pair wellFormed.sorted less below
  · exact Int.le_refl _

/-- A key is at one index only. -/
theorem WellFormed.keyAt_inj (lawful : ops.Lawful) (wellFormed : WellFormed ops map) {j : Nat}
    (hi : i < map.length) (hj : j < map.length) (same : ops.sameValue (map.keyAt i) (map.keyAt j) = true) :
    i = j := by
  rcases Nat.lt_trichotomy i j with less | rfl | more
  · rw [wellFormed.pair wellFormed.distinct less hj] at same
    cases same
  · rfl
  · have same' := lawful.symm _ _ same
    rw [wellFormed.pair wellFormed.distinct more hi] at same'
    cases same'

/-! ## Equal hashes -/

theorem WellFormed.sameHash_eq (wellFormed : WellFormed ops map) (hash : Int) (below : i < map.length) :
    sameHash map.hashes hash i = some (decide (map.hashAt i = hash)) := by
  rw [sameHash, wellFormed.slot below, wellFormed.hashAt_eq below]
  rfl

theorem WellFormed.sameKey_eq (wellFormed : WellFormed ops map) (key : JSTaggedValue α)
    (below : i < map.length) : sameKey ops map.keys key i = some (ops.sameValue (map.keyAt i) key) := by
  rw [sameKey, wellFormed.getElem?_keys below]
  rfl

/-- What the search says about a key: its index, or the place where it belongs. -/
inductive Finds (ops : MapOps α) (map : JSAPILightWeightMap α) (key : JSTaggedValue α) :
    Bool → Nat → Prop where
  | present {i : Nat} (below : i < map.length) (same : ops.sameValue (map.keyAt i) key = true) :
      Finds ops map key true i
  | absent {p : Nat} (place : p ≤ map.length)
      (none : ∀ i < map.length, ops.sameValue (map.keyAt i) key = false)
      (before : ∀ i < p, map.hashAt i ≤ ops.hash key)
      (behind : ∀ i, p ≤ i → i < map.length → ops.hash key ≤ map.hashAt i) : Finds ops map key false p

theorem WellFormed.hashAt_of_same (lawful : ops.Lawful) (wellFormed : WellFormed ops map)
    (below : i < map.length) (same : ops.sameValue (map.keyAt i) key = true) :
    map.hashAt i = ops.hash key := by
  rw [wellFormed.hashAt_eq below, lawful.hash _ _ same]

/-- The scans over the slots with the hash of the key, from an index that has it. -/
theorem scans_spec (lawful : ops.Lawful) (wellFormed : WellFormed ops map) {index : Nat}
    (below : index < map.length) (here : map.hashAt index = ops.hash key) :
    ∃ right found, scanRight (sameHash map.hashes (ops.hash key)) (sameKey ops map.keys key)
        (map.length - index) index = some (right, found) ∧ index ≤ right ∧
      (found = true → Finds ops map key true right) ∧
      (found = false → index < right ∧ ∃ left,
        scanLeft (sameHash map.hashes (ops.hash key)) (sameKey ops map.keys key) index = some left ∧
        (∀ i, left = some i → Finds ops map key true i) ∧
        (left = none → Finds ops map key false right)) := by
  have hashes := fun i (less : i < map.length) => wellFormed.sameHash_eq (ops.hash key) less
  have keys := fun i (less : i < map.length) => wellFormed.sameKey_eq key less
  obtain ⟨right, found, scan, le, bound, passed, yes, no⟩ :=
    scanRight_spec hashes keys (map.length - index) index (by omega)
  refine ⟨right, found, scan, le, fun hit => ?_, fun miss => ?_⟩
  · obtain ⟨less, -, same⟩ := yes hit
    exact .present less same
  · have more : index < right := by
      rcases Nat.eq_or_lt_of_le le with rfl | more
      · have first := no miss below
        simp [here] at first
      · exact more
    obtain ⟨left, scan', yes', no'⟩ := scanLeft_spec hashes keys index (by omega)
    refine ⟨more, left, scan', fun i is => ?_, fun nothing => ?_⟩
    · obtain ⟨less, -, same⟩ := yes' i is
      exact .present (by omega) same
    · obtain ⟨b, before, seen, stop⟩ := no' nothing
      have absent := scan_none wellFormed.ascending (fun _ _ => rfl) below here le
        (fun j ge less => (passed j ge less).2) (no miss) before seen stop
      obtain ⟨small, large⟩ := scan_end wellFormed.ascending (fun _ _ => rfl) below here le
        (fun j ge less => (passed j ge less).1) bound (no miss)
      refine .absent bound (fun i less => ?_) small (fun i ge less => Int.le_of_lt (large i ge less))
      by_cases same : map.hashAt i = ops.hash key
      · exact absent i less same
      · rw [← Bool.not_eq_true]
        exact fun is => same (wellFormed.hashAt_of_same lawful less is)

theorem binarySearchHashes_spec (lawful : ops.Lawful) (wellFormed : WellFormed ops map)
    (key : JSTaggedValue α) :
    ∃ r : Int, binarySearchHashes map.hashes (ops.hash key) map.length = some r ∧
      ((∃ index < map.length, r = (index : Int) ∧ map.hashAt index = ops.hash key) ∨
        ∃ p : Nat, r = -((p : Int) + 1) ∧ Finds ops map key false p) := by
  have reads : ∀ i < map.length, map.hashes[i]?.map JSTaggedValue.getInt = some (map.hashAt i) := by
    intro i below
    rw [wellFormed.slot below, wellFormed.hashAt_eq below]
    rfl
  obtain ⟨r, run, found | ⟨p, le, rfl, cuts⟩⟩ := binarySearch_spec map.length (ops.hash key) reads
  · exact ⟨r, run, .inl found⟩
  · obtain ⟨before, behind⟩ := cuts wellFormed.ascending
    refine ⟨_, run, .inr ⟨p, rfl, .absent le (fun i below => ?_) (fun i less => ?_) fun i ge below => ?_⟩⟩
    · rw [← Bool.not_eq_true]
      intro same
      have here := wellFormed.hashAt_of_same lawful below same
      rcases Nat.lt_or_ge i p with less | ge
      · have := before i less
        omega
      · have := behind i ge below
        omega
    · exact Int.le_of_lt (before i less)
    · exact Int.le_of_lt (behind i ge below)

theorem getStateOfKey_spec (lawful : ops.Lawful) (wellFormed : WellFormed ops map)
    (key : JSTaggedValue α) :
    ∃ existed i, map.getStateOfKey ops key = some ⟨existed, ops.hash key, (i : Nat)⟩ ∧
      Finds ops map key existed i := by
  obtain ⟨r, search, ⟨index, below, rfl, here⟩ | ⟨p, rfl, finds⟩⟩ :=
    binarySearchHashes_spec lawful wellFormed key
  · obtain ⟨right, found, scan, -, hit, miss⟩ := scans_spec lawful wellFormed below here
    simp only [getStateOfKey, search, Option.bind_eq_bind, Option.bind_some, Int.natCast_nonneg, if_true,
      Int.toNat_natCast, scan]
    cases found with
    | true => exact ⟨true, right, rfl, hit rfl⟩
    | false =>
      obtain ⟨-, left, scan', yes, no⟩ := miss rfl
      simp only [Bool.false_eq_true, if_false, scan', Option.bind_some]
      cases left with
      | some left => exact ⟨true, left, rfl, yes left rfl⟩
      | none => exact ⟨false, right, rfl, no rfl⟩
  · refine ⟨false, p, ?_, finds⟩
    have neg : ¬ (0 : Int) ≤ -((p : Int) + 1) := by omega
    simp only [getStateOfKey, search, Option.bind_eq_bind, Option.bind_some, neg, if_false]
    rw [show -(-((p : Int) + 1)) - 1 = p by omega]
    rfl

/-- Where the key is absent, the index is that of another key with the same hash. -/
theorem avoidHashCollision_spec (lawful : ops.Lawful) (wellFormed : WellFormed ops map) {index : Nat}
    (below : index < map.length) (here : map.hashAt index = ops.hash key) :
    ∃ i : Nat, avoidHashCollision ops map.hashes map.keys key index map.length (ops.hash key) =
        some (i : Int) ∧ i < map.length ∧
      (ops.sameValue (map.keyAt i) key = true ∨
        ∀ j < map.length, ops.sameValue (map.keyAt j) key = false) := by
  obtain ⟨right, found, scan, -, hit, miss⟩ := scans_spec lawful wellFormed below here
  simp only [avoidHashCollision, scan, Option.bind_eq_bind, Option.bind_some]
  cases found with
  | true =>
    cases hit rfl with
    | present less same => exact ⟨right, rfl, less, .inl same⟩
  | false =>
    obtain ⟨more, left, scan', yes, no⟩ := miss rfl
    simp only [Bool.false_eq_true, if_false, scan', Option.bind_some]
    cases left with
    | some left =>
      cases yes left rfl with
      | present less same => exact ⟨left, rfl, less, .inl same⟩
    | none =>
      cases no rfl with
      | absent place none =>
        refine ⟨right - 1, ?_, by omega, .inr none⟩
        rw [show ((right - 1 : Nat) : Int) = (right : Int) - 1 by omega]
        rfl

end JSAPILightWeightMap

end ArkRuntime
