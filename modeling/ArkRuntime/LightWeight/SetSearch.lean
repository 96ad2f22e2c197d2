import ArkRuntime.LightWeight.SetModel

/-!
# The search of `LightWeightSet`

`GetHashIndex` returns whatever the arrays hold, with an index that `Add` and `Remove` can use. On sorted
hashes it finds the element, or the place where it belongs.
-/

namespace ArkRuntime

variable {α : Type}

/-- `SameValue` is an equivalence and equal values have the same hash. -/
structure SetOps.Lawful (ops : SetOps α) : Prop where
  refl : ∀ x, ops.sameValue x x = true
  symm : ∀ x y, ops.sameValue x y = true → ops.sameValue y x = true
  trans : ∀ x y z, ops.sameValue x y = true → ops.sameValue y z = true → ops.sameValue x z = true
  hash : ∀ x y, ops.sameValue x y = true → ops.hash x = ops.hash y

theorem SetOps.getUint32_hashSlot (ops : SetOps α) (h : UInt32) :
    ops.getUint32 (SetOps.hashSlot h) = h := by
  have bound := h.toNat_lt
  rw [SetOps.hashSlot, SetOps.getUint32, if_pos (by omega)]
  exact UInt32.toNat_inj.mp (by simp)

theorem SetOps.isNumber_hashSlot (ops : SetOps α) (g h : UInt32) :
    ops.isNumber (SetOps.hashSlot g) h = decide ((g.toNat : Int) = h.toNat) := by
  have bound := g.toNat_lt
  rw [SetOps.hashSlot, SetOps.isNumber, if_pos (by omega)]
  rfl

namespace JSAPILightWeightSet

/-- The slots in use: the hashes of the values, ascending, and no value twice. -/
structure Contents (ops : SetOps α) (hashes values : Slots α) : Prop where
  hashes : hashes = values.map fun v => SetOps.hashSlot (ops.hash v)
  sorted : values.Pairwise fun x y => ops.hash x ≤ ops.hash y
  distinct : values.Pairwise fun x y => ops.sameValue x y = false

/-- The values in use, in the order of the slots. -/
def elements (obj : JSAPILightWeightSet α) : List (JSTaggedValue α) := obj.values.take obj.length

/-- The slots in use are what `Contents` says of the two arrays. -/
def Ordered (ops : SetOps α) (obj : JSAPILightWeightSet α) : Prop :=
  Contents ops (obj.hashes.take obj.length) obj.elements

/-- The slots in use are inside both arrays. -/
structure Inside (obj : JSAPILightWeightSet α) : Prop where
  hashes : obj.length ≤ obj.hashes.length
  values : obj.length ≤ obj.values.length

variable {ops : SetOps α} {obj : JSAPILightWeightSet α} {value : JSTaggedValue α}

/-! ## The slots that the search looks at -/

/-- The hash that binary search reads at `i`. -/
def hashAt (ops : SetOps α) (obj : JSAPILightWeightSet α) (i : Nat) : Int :=
  (ops.getUint32 (obj.hashes.getD i .hole)).toNat

/-- The test of the hash at `i` that ends a scan. -/
def sameHashAt (ops : SetOps α) (obj : JSAPILightWeightSet α) (hash : UInt32) (i : Nat) : Bool :=
  ops.isNumber (obj.hashes.getD i .hole) hash

/-- The test of the value at `i`. -/
def isAt (ops : SetOps α) (obj : JSAPILightWeightSet α) (value : JSTaggedValue α) (i : Nat) : Bool :=
  ops.sameValue (obj.values.getD i .hole) value

theorem map_slot {β γ : Type} {a : List β} {i : Nat} (below : i < a.length) (d : β) (f : β → γ) :
    a[i]?.map f = some (f (a.getD i d)) := by
  rw [List.getD_eq_getElem?_getD, List.getElem?_eq_getElem below]
  rfl

theorem getElem?_elements (inside : Inside obj) {i : Nat} (below : i < obj.length) :
    obj.elements[i]? = some (obj.values.getD i .hole) := by
  have bound := inside.values
  rw [elements, List.getElem?_take_of_lt below, List.getD_eq_getElem?_getD,
    List.getElem?_eq_getElem (by omega)]
  rfl

theorem length_elements (inside : Inside obj) : obj.elements.length = obj.length := by
  rw [elements, List.length_take]
  exact Nat.min_eq_left inside.values

theorem Ordered.slot (ordered : Ordered ops obj) (inside : Inside obj) {i : Nat}
    (below : i < obj.length) :
    obj.hashes.getD i .hole = SetOps.hashSlot (ops.hash (obj.values.getD i .hole)) := by
  have bound := inside.hashes
  have here := congrArg (fun l => l[i]?) ordered.hashes
  simp only [List.getElem?_map, getElem?_elements inside below, Option.map_some,
    List.getElem?_take_of_lt below] at here
  rw [List.getD_eq_getElem?_getD, here]
  rfl

theorem Ordered.hashAt_eq (ordered : Ordered ops obj) (inside : Inside obj) {i : Nat}
    (below : i < obj.length) : obj.hashAt ops i = (ops.hash (obj.values.getD i .hole)).toNat := by
  rw [hashAt, ordered.slot inside below, SetOps.getUint32_hashSlot]

theorem Ordered.sameHashAt_eq (ordered : Ordered ops obj) (inside : Inside obj) (h : UInt32) {i : Nat}
    (below : i < obj.length) : obj.sameHashAt ops h i = decide (obj.hashAt ops i = h.toNat) := by
  rw [ordered.hashAt_eq inside below, sameHashAt, ordered.slot inside below, SetOps.isNumber_hashSlot]

theorem Ordered.ascending (ordered : Ordered ops obj) (inside : Inside obj) :
    Ascending (obj.hashAt ops) obj.length := by
  intro i j le below
  rcases Nat.lt_or_eq_of_le le with less | rfl
  · rw [ordered.hashAt_eq inside (by omega), ordered.hashAt_eq inside below]
    have pair := List.pairwise_iff_getElem.mp ordered.sorted i j
      (by rw [length_elements inside]; omega) (by rw [length_elements inside]; omega) less
    have first := getElem?_elements inside (show i < obj.length by omega)
    have second := getElem?_elements inside below
    rw [List.getElem?_eq_getElem (by rw [length_elements inside]; omega), Option.some.injEq] at first second
    rw [first, second, UInt32.le_iff_toNat_le] at pair
    exact Int.ofNat_le.mpr pair
  · exact Int.le_refl _

/-! ## `GetHashIndex` -/

/-- What the result of `GetHashIndex` says. -/
structure Located (ops : SetOps α) (obj : JSAPILightWeightSet α) (value : JSTaggedValue α) (r : Int) :
    Prop where
  found : 0 ≤ r → obj.isAt ops value r.toNat = true
  absent : r < 0 → ∀ i < obj.length, obj.isAt ops value i = false
  before : r < 0 → ∀ i < (-r - 1).toNat, obj.hashAt ops i ≤ (ops.hash value).toNat
  behind : r < 0 → ∀ i, (-r - 1).toNat ≤ i → i < obj.length → (ops.hash value).toNat ≤ obj.hashAt ops i

theorem hashAt_of_isAt (lawful : ops.Lawful) (ordered : Ordered ops obj) (inside : Inside obj) {i : Nat}
    (below : i < obj.length) (same : obj.isAt ops value i = true) :
    obj.hashAt ops i = (ops.hash value).toNat := by
  rw [ordered.hashAt_eq inside below, lawful.hash _ _ same]

/-- The hash occurs nowhere, and binary search says where it belongs. -/
theorem located_of_cuts (lawful : ops.Lawful) (ordered : Ordered ops obj) (inside : Inside obj) {p : Nat}
    (cuts : Cuts (obj.hashAt ops) obj.length (ops.hash value).toNat p) :
    Located ops obj value (-((p : Int) + 1)) := by
  obtain ⟨before, behind⟩ := cuts
  have place : (-(-((p : Int) + 1)) - 1).toNat = p := by omega
  refine ⟨fun no => by omega, fun _ i below => ?_, fun _ i less => ?_, fun _ i ge below => ?_⟩
  · rw [← Bool.not_eq_true]
    intro same
    have here := hashAt_of_isAt lawful ordered inside below same
    rcases Nat.lt_or_ge i p with less | ge
    · have := before i less
      omega
    · have := behind i ge below
      omega
  · rw [place] at less
    exact Int.le_of_lt (before i less)
  · rw [place] at ge
    exact Int.le_of_lt (behind i ge below)

/-- The hash occurs, but not with this value. The result is the place before the last slot that has
    the hash. -/
theorem located_of_scans (lawful : ops.Lawful) (ordered : Ordered ops obj) (inside : Inside obj)
    {index right b : Nat} (below : index < obj.length)
    (here : obj.hashAt ops index = (ops.hash value).toNat) (more : index < right)
    (bound : right ≤ obj.length)
    (passed : ∀ j, index ≤ j → j < right →
      obj.sameHashAt ops (ops.hash value) j = true ∧ obj.isAt ops value j = false)
    (stop : right < obj.length → obj.sameHashAt ops (ops.hash value) right = false)
    (before : b ≤ index) (left : ∀ j, b ≤ j → j < index → obj.isAt ops value j = false)
    (stop' : ∀ j, j + 1 = b → obj.sameHashAt ops (ops.hash value) j = false) :
    Located ops obj value (-(right : Int)) := by
  have ascending := ordered.ascending inside
  have hashes := fun i below => ordered.sameHashAt_eq inside (ops.hash value) (i := i) below
  have none := scan_none ascending hashes below here (Nat.le_of_lt more)
    (fun j ge less => (passed j ge less).2) stop before left stop'
  obtain ⟨small, large⟩ := scan_end ascending hashes below here (Nat.le_of_lt more)
    (fun j ge less => (passed j ge less).1) bound stop
  have place : (-(-(right : Int)) - 1).toNat = right - 1 := by omega
  refine ⟨fun no => by omega, fun _ i below => ?_, fun _ i less => ?_, fun _ i ge below => ?_⟩
  · by_cases same : obj.hashAt ops i = (ops.hash value).toNat
    · exact none i below same
    · rw [← Bool.not_eq_true]
      exact fun is => same (hashAt_of_isAt lawful ordered inside below is)
  · rw [place] at less
    exact small i (by omega)
  · rw [place] at ge
    rcases Nat.lt_or_ge i right with less | ge
    · have last := (passed i (by omega) less).1
      rw [hashes i below, decide_eq_true_eq] at last
      exact Int.le_of_eq last.symm
    · exact Int.le_of_lt (large i ge below)

theorem getHashIndex_spec (ops : SetOps α) (inside : Inside obj) (value : JSTaggedValue α) :
    ∃ r : Int, obj.getHashIndex ops value obj.length = some r ∧ -((obj.length : Int) + 1) ≤ r ∧
      r < obj.length ∧ (ops.Lawful → Ordered ops obj → Located ops obj value r) := by
  have hh := inside.hashes
  have hv := inside.values
  have reads : ∀ i < obj.length, (obj.hashes[i]?.map fun v => ((ops.getUint32 v).toNat : Int)) =
      some (obj.hashAt ops i) := fun i below => map_slot (Nat.lt_of_lt_of_le below hh) JSTaggedValue.hole _
  have hashes : ∀ i < obj.length, obj.hashes[i]?.map (ops.isNumber · (ops.hash value)) =
      some (obj.sameHashAt ops (ops.hash value) i) := fun i below => map_slot (Nat.lt_of_lt_of_le below hh) JSTaggedValue.hole _
  have keys : ∀ i < obj.length, obj.values[i]?.map (ops.sameValue · value) =
      some (obj.isAt ops value i) := fun i below => map_slot (Nat.lt_of_lt_of_le below hv) JSTaggedValue.hole _
  obtain ⟨r, run, found | ⟨p, le, rfl, cuts⟩⟩ :=
    binarySearch_spec obj.length (ops.hash value).toNat reads
  · obtain ⟨index, below, rfl, here⟩ := found
    have some : ¬ ((index : Int) < 0) := by omega
    simp only [getHashIndex, binarySearchHashes, run, Option.bind_eq_bind, Option.bind_some, some,
      if_false, Int.toNat_natCast, keys index below, below, true_and]
    cases same : obj.isAt ops value index with
    | true =>
      refine ⟨index, rfl, by omega, by omega, fun _ _ => ⟨fun _ => ?_, ?_, ?_, ?_⟩⟩
      · rw [Int.toNat_natCast]
        exact same
      all_goals exact fun no => absurd no (by omega)
    | false =>
      obtain ⟨right, hit, scan, le, bound, passed, yes, no⟩ :=
        scanRight_spec hashes keys (obj.length - index) index (by omega)
      simp only [Bool.false_eq_true, if_false, scan, Option.bind_some]
      cases hit with
      | true =>
        obtain ⟨inside', -, is⟩ := yes rfl
        refine ⟨right, rfl, by omega, by omega, fun _ _ => ⟨fun _ => ?_, ?_, ?_, ?_⟩⟩
        · rw [Int.toNat_natCast]
          exact is
        all_goals exact fun no => absurd no (by omega)
      | false =>
        obtain ⟨left, scan', yes', no'⟩ := scanLeft_spec hashes keys index (by omega)
        simp only [Bool.false_eq_true, if_false, scan', Option.bind_some]
        cases left with
        | some left =>
          obtain ⟨less, -, is⟩ := yes' left rfl
          refine ⟨left, rfl, by omega, by omega, fun _ _ => ⟨fun _ => ?_, ?_, ?_, ?_⟩⟩
          · rw [Int.toNat_natCast]
            exact is
          all_goals exact fun no => absurd no (by omega)
        | none =>
          obtain ⟨b, before, seen, stop⟩ := no' rfl
          refine ⟨-(right : Int), rfl, by omega, by omega, fun lawful ordered => ?_⟩
          have more : index < right := by
            rcases Nat.eq_or_lt_of_le le with rfl | more
            · have first := no rfl below
              rw [ordered.sameHashAt_eq inside _ below, decide_eq_false_iff_not] at first
              exact absurd here first
            · exact more
          exact located_of_scans lawful ordered inside below here more bound passed (no rfl) before seen
            stop
  · have neg : -((p : Int) + 1) < 0 := by omega
    refine ⟨-((p : Int) + 1), ?_, by omega, by omega, fun lawful ordered => ?_⟩
    · simp only [getHashIndex, binarySearchHashes, run, Option.bind_eq_bind, Option.bind_some, neg,
        if_true]
      rfl
    · exact located_of_cuts lawful ordered inside (cuts (ordered.ascending inside))

end JSAPILightWeightSet

end ArkRuntime
